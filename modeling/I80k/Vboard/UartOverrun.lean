import I80k.Vboard.UartBytes

/-!
# The acknowledgement of an overrun

A guest that is told of an overrun by the interrupt identification register reads the line status, and expects
that the overrun is shown and gone. But the line status register shows one condition only: if there is a byte to
read, or nothing to transmit, it shows that, and the overrun stays. The identification register ranks it above
a transmitter that is empty, and below bytes that have not timed out yet. So with empty queues the handler
reads the same two registers for ever.

## Main definitions

* `DevOp`, `P16550.devStep`: any guest, and the device
* `P16550.Acknowledges`: a read of the line status shows the overrun, and it is gone
* `Uart.LoopEnds`: the loop of `uart_handler` ends, as long as no input arrives
* `Uart.Quiet`: there is nothing to read, and no overrun

## Main results

* `P16550.acknowledges_iff`: when a read of the line status acknowledges the overrun
* `Uart.Quiet.step`, `Uart.Quiet.loopEnds`: what is left of the loop gets less with each access
* `Uart.handler_comes_back`: the loop that does not end
* `line_status_acknowledged_iff`: the two of them, in every run
-/

namespace I80k.Vboard

open Kernel StepSystem

/-! ## Any guest -/

/-- An access of a guest to a register, or a byte that the device moves. -/
inductive DevOp
  | read (timeout : Bool) (reg : ℕ)
  | write (data : UInt8) (reg : ℕ)
  | input (char : UInt8)
  | drain

/-- The step is one of the device. -/
def DevOp.IsDevice : DevOp → Prop
  | .input _ | .drain => True
  | _ => False

namespace P16550

variable (u : P16550)

/-- One step. -/
def devStep : DevOp → Option P16550
  | .read timeout reg => some (u.read timeout reg).2
  | .write data reg => some (u.write data reg)
  | .input char => some (u.input char)
  | .drain =>
    match u.txBuf with
    | [] => none
    | _ :: rest => some { u with txBuf := rest }

/-- The step is not a byte of input that is lost. -/
def NoOverrun : DevOp → Prop
  | .input _ => u.rxBuf.length < queueSz
  | _ => True

/-- A read of the interrupt identification register gives `IIR_LINE_STATUS`; the other bits say whether the
queues are enabled. -/
def ReportsLineStatus (timeout : Bool) : Prop := (u.read timeout 2).1 &&& 0x3F = iirLineStatus

/-- A read of the line status has `LSR_OVERRUN_ERROR`, and from then on the identification register does not
report the line status, whatever the guest does, until there is another overrun. -/
structure Acknowledges : Prop where
  seen : (u.read false 5).1 &&& 0x02 ≠ 0
  gone : ∀ ops, Steps devStep NoOverrun (u.read false 5).2 ops →
    Always devStep (fun u' => ∀ timeout, ¬ u'.ReportsLineStatus timeout) (u.read false 5).2 ops

variable {u} {u' : P16550}

/-- The line status is reported for an overrun only. -/
theorem overrun_of_reports {timeout : Bool} (h : u.ReportsLineStatus timeout) : u.rxOverrun = true := by
  have hother : ∀ r : UInt8, r = iirFifoEnabled ∨ r = 0 →
      (r ||| iirRxData) &&& 0x3F ≠ iirLineStatus ∧ (r ||| iirFifoTimeout) &&& 0x3F ≠ iirLineStatus ∧
        (r ||| iirTxEmpty) &&& 0x3F ≠ iirLineStatus := by
    rintro r (rfl | rfl) <;> decide
  obtain ⟨hdata, htimeout, hempty⟩ := hother (if u.FifoEnabled then iirFifoEnabled else 0) (ite_eq_or_eq _ _ _)
  have hread : u.interruptIdentificationRegister timeout &&& 0x3F = iirLineStatus := h
  unfold interruptIdentificationRegister at hread
  dsimp only at hread
  -- one goal for each condition that the register looks at, in its order
  generalize (if u.FifoEnabled then iirFifoEnabled else 0) = r at hread hdata htimeout hempty
  split_ifs at hread with _ _ hoverrun _
  · exact absurd hread hdata
  · exact absurd hread htimeout
  · exact hoverrun
  · exact absurd hread hempty
  · exact absurd hread (by decide)

/-- Without an overrun there is none until a byte of input is lost. -/
theorem rxOverrun_devStep {op : DevOp} (h : u.rxOverrun = false) (hop : u.NoOverrun op)
    (hs : u.devStep op = some u') : u'.rxOverrun = false := by
  cases op with
  | read timeout reg =>
    obtain rfl := Option.some.inj hs
    unfold P16550.read lineStatusRegister
    repeat' split
    all_goals first | exact h | rfl
  | write data reg =>
    obtain rfl := Option.some.inj hs
    unfold P16550.write
    repeat' split
    all_goals exact h
  | input char =>
    obtain rfl := Option.some.inj hs
    have hroom : u.rxBuf.length < queueSz := hop
    rw [P16550.input, if_pos hroom]
    exact h
  | drain =>
    rw [devStep] at hs
    split at hs
    · exact absurd hs (by simp)
    · obtain rfl := Option.some.inj hs
      exact h

/-- The steps of the device alone keep an overrun. -/
theorem rxOverrun_device {op : DevOp} (h : u.rxOverrun = true) (hop : op.IsDevice)
    (hs : u.devStep op = some u') : u'.rxOverrun = true := by
  cases op with
  | read => exact hop.elim
  | write => exact hop.elim
  | input char =>
    obtain rfl := Option.some.inj hs
    rw [P16550.input]
    split_ifs
    · exact h
    · rfl
  | drain =>
    rw [devStep] at hs
    split at hs
    · exact absurd hs (by simp)
    · obtain rfl := Option.some.inj hs
      exact h

/-- The read of the line status that clears an overrun. -/
theorem lineStatusRegister_of_clears (hrx : u.rxBuf = []) (htx : u.txBuf ≠ []) (hoverrun : u.rxOverrun = true) :
    u.lineStatusRegister = (0x02, { u with rxOverrun := false }) := by
  have hread : ¬ 0 < u.rxBuf.length := by simp [hrx]
  have hlen : ¬ u.txBuf.length = 0 := fun hnil => htx (List.length_eq_zero_iff.mp hnil)
  rw [lineStatusRegister, if_neg hread, if_neg hlen, if_pos hoverrun]

/-- **When a read of the line status acknowledges an overrun.** -/
theorem acknowledges_iff (hoverrun : u.rxOverrun = true) : u.Acknowledges ↔ u.rxBuf = [] ∧ u.txBuf ≠ [] := by
  constructor
  · intro h
    have hseen : u.lineStatusRegister.1 &&& 0x02 ≠ 0 := h.seen
    have hready : ¬ (1 : UInt8) &&& 0x02 ≠ 0 := by decide
    have hempty : ¬ ((0x40 : UInt8) ||| 0x20) &&& 0x02 ≠ 0 := by decide
    -- the register shows the first condition that it finds, and the overrun is the last
    unfold lineStatusRegister at hseen
    split_ifs at hseen with hrx htx
    · exact absurd hseen hready
    · exact absurd hseen hempty
    · refine ⟨List.length_eq_zero_iff.mp (by omega), fun hnil => htx ?_⟩
      rw [hnil, List.length_nil]
  · rintro ⟨hrx, htx⟩
    have hread : u.read false 5 = (0x02, { u with rxOverrun := false }) :=
      lineStatusRegister_of_clears hrx htx hoverrun
    have hseen : (0x02 : UInt8) &&& 0x02 ≠ 0 := by decide
    refine ⟨by rwa [hread], fun ops hops => ?_⟩
    rw [hread] at hops ⊢
    have hnone : Always devStep (fun u' => u'.rxOverrun = false) { u with rxOverrun := false } ops :=
      always_of_steps (fun u op u' h hop hs => rxOverrun_devStep h hop hs) rfl hops
    -- the identification register reports the line status for an overrun only
    refine hnone.imp fun u' h' timeout hreports => ?_
    rw [overrun_of_reports hreports] at h'
    exact absurd h' (by decide)

end P16550

/-! ## The loop of the handler -/

namespace Uart

variable {s s' : Uart}

/-- The steps while the handler is in its loop, and no input arrives. -/
def Op.NoInput : Op → Prop
  | .enter => False
  | .input _ => False
  | _ => True

/-- The step is an access of the handler. -/
def Op.isHandler : Op → Bool
  | .handler _ => true
  | _ => false

/-- The loop of `uart_handler` ends: it makes a bounded number of accesses, in every interleaving, as long as
no input arrives. -/
def LoopEnds (s : Uart) : Prop :=
  ∃ n, ∀ ops s', (∀ op ∈ ops, op.NoInput) → run Uart.step s ops = some s' → ops.countP Op.isHandler ≤ n

/-- The state after the handler has read the line status. -/
def afterLineStatus (s : Uart) : Uart := s.handlerStep false .lineStatus

/-- The accesses that disable the interrupt of the transmitter, if it is enabled, and one more. -/
def disableLeft (u : P16550) : ℕ := if u.TxEmpty then 3 else 0

/-- What is left of the loop, with nothing to read and no overrun: the bytes of `tx_ring` are put into the
queue of the device, and then the interrupt is disabled. -/
def loopLeft (s : Uart) : ℕ :=
  match s.handler with
  | none => 0
  | some .isr => 2 * s.txRing.items.length + disableLeft s.dev + 1
  | some .disableRead => 2 * s.txRing.items.length + 3
  | some (.disableWrite _) => 2 * s.txRing.items.length + 2
  | some _ => 2 * s.txRing.items.length + disableLeft s.dev

/-- The positions of the handler with nothing to read and no overrun. -/
def QuietAt (s : Uart) : HandlerAt → Prop
  | .isr | .disableRead | .disableWrite _ => True
  | .txEmpty _ => s.txRing.items ≠ []
  | _ => False

/-- There is nothing to read, and no overrun. -/
structure Quiet (s : Uart) : Prop where
  inv : s.Inv
  rxBuf : s.dev.rxBuf = []
  rxOverrun : s.dev.rxOverrun = false
  handler : ∀ at' ∈ s.handler, s.QuietAt at'

/-- Where the handler goes if there is nothing to read, and no overrun. -/
theorem Quiet.dispatch (h : s.Quiet) (timeout : Bool) :
    HandlerAt.dispatch (s.dev.read timeout 2).1 s.txRing =
      if s.dev.TxEmpty ∧ s.dev.txBuf.length = 0 then
        some (if s.txRing.items ≠ [] then .txEmpty 0 else .disableRead)
      else none := by
  have hdata : ¬ (s.dev.RxDataAvailable ∧ s.dev.rxTriggerLevel ≤ s.dev.rxBuf.length) := by
    rintro ⟨-, hlevel⟩
    rw [h.inv.rxTriggerLevel, h.rxBuf] at hlevel
    exact absurd hlevel (by decide)
  have htimeout : ¬ (s.dev.RxLineStatus ∧ 0 < s.dev.rxBuf.length ∧ timeout = true) := by
    rintro ⟨-, hpos, -⟩
    rw [h.rxBuf] at hpos
    exact absurd hpos (by decide)
  have hoverrun : ¬ s.dev.rxOverrun = true := by simp [h.rxOverrun]
  show HandlerAt.dispatch (s.dev.interruptIdentificationRegister timeout) s.txRing = _
  unfold P16550.interruptIdentificationRegister
  simp only [if_pos h.inv.fifoEnabled, if_neg hdata, if_neg htimeout, if_neg hoverrun]
  by_cases htx : s.dev.TxEmpty ∧ s.dev.txBuf.length = 0
  · rw [if_pos htx, if_pos htx]
    rfl
  · rw [if_neg htx, if_neg htx]
    rfl

/-- A write of the interrupts to enable, without that of the transmitter. -/
theorem not_txEmpty_disable (ier : UInt8) : ¬ (ier &&& ~~~ierTxRdy) &&& 0x02 = 0x02 := by
  have hclear : (~~~ierTxRdy) &&& 0x02 = 0 := by decide
  rw [UInt8.and_assoc, hclear, UInt8.and_zero]
  decide

/-- The statements of `irqManager` are about the interrupt line. -/
theorem irqStep_eq (hs : s.irqStep s.irq = some s') :
    ∃ irqLine irq lastIrq, s' = { s with irqLine, irq, lastIrq } := by
  unfold irqStep at hs
  split at hs
  · exact absurd hs (by simp)
  · split_ifs at hs
    all_goals
      obtain rfl := Option.some.inj hs
      exact ⟨_, _, _, rfl⟩
  · obtain rfl := Option.some.inj hs
    exact ⟨_, _, _, rfl⟩

/-- The identification is read: the handler goes on where there is something to send, and less is left of the
loop. -/
theorem Quiet.handlerStep_isr (h : s.Quiet) (hat : s.handler = some .isr) (timeout : Bool) :
    (s.handlerStep timeout .isr).Quiet ∧ (s.handlerStep timeout .isr).loopLeft < s.loopLeft := by
  have hinv := h.inv.handlerStep hat timeout
  have hdispatch := h.dispatch timeout
  by_cases htx : s.dev.TxEmpty ∧ s.dev.txBuf.length = 0
  · rw [if_pos htx] at hdispatch
    by_cases hring : s.txRing.items ≠ []
    · rw [if_pos hring] at hdispatch
      refine ⟨⟨hinv, h.rxBuf, h.rxOverrun, fun a ha => ?_⟩, ?_⟩
      · obtain rfl := Option.some.inj (hdispatch.symm.trans ha)
        exact hring
      · simp only [Uart.handlerStep, hdispatch, loopLeft, hat]
        exact Nat.lt_succ_self _
    · rw [if_neg hring] at hdispatch
      refine ⟨⟨hinv, h.rxBuf, h.rxOverrun, fun a ha => ?_⟩, ?_⟩
      · obtain rfl := Option.some.inj (hdispatch.symm.trans ha)
        trivial
      · simp only [Uart.handlerStep, hdispatch, loopLeft, hat, disableLeft, if_pos htx.1]
        exact Nat.lt_succ_self _
  · rw [if_neg htx] at hdispatch
    refine ⟨⟨hinv, h.rxBuf, h.rxOverrun, fun a ha => ?_⟩, ?_⟩
    · exact absurd (hdispatch.symm.trans ha) (by simp)
    · simp only [Uart.handlerStep, hdispatch, loopLeft, hat]
      exact Nat.succ_pos _

/-- A byte is sent: one less is left. -/
theorem Quiet.handlerStep_txEmpty {i : ℕ} (h : s.Quiet) (hat : s.handler = some (.txEmpty i)) (timeout : Bool) :
    (s.handlerStep timeout (.txEmpty i)).Quiet ∧ (s.handlerStep timeout (.txEmpty i)).loopLeft < s.loopLeft := by
  have hinv := h.inv.handlerStep hat timeout
  obtain ⟨data, rest, hring⟩ := List.exists_cons_of_ne_nil (h.handler _ hat)
  have hroom : s.dev.txBuf.length < queueSz := lt_of_le_of_lt (h.inv.handler _ hat).1 (h.inv.handler _ hat).2
  have hwrite : s.dev.write data 0 = { s.dev with txBuf := s.dev.txBuf ++ [data] } := by
    simp [P16550.write, h.inv.not_hasDlab, hroom]
  simp only [Uart.handlerStep, hring] at hinv ⊢
  refine ⟨⟨hinv, ?_, ?_, fun a ha => ?_⟩, ?_⟩
  · simp only [transmitByte, hwrite, h.rxBuf]
  · simp only [transmitByte, hwrite, h.rxOverrun]
  · obtain rfl := Option.some.inj ha
    split_ifs with hmore
    · exact hmore.2
    · trivial
  · have hbefore : s.loopLeft = 2 * (rest.length + 1) + disableLeft s.dev := by
      simp only [loopLeft, hat, hring, List.length_cons]
    have hsame : disableLeft (s.transmitByte data rest).dev = disableLeft s.dev := by
      simp only [transmitByte, hwrite]
      rfl
    rw [hbefore]
    split_ifs with hmore
    · simp only [loopLeft, hsame]
      exact Nat.add_lt_add_right (Nat.mul_lt_mul_of_pos_left (Nat.lt_succ_self _) two_pos) _
    · simp only [loopLeft, hsame]
      show 2 * rest.length + disableLeft s.dev + 1 < _
      omega

/-- An access of the handler keeps the state quiet, and less is left of the loop. -/
theorem Quiet.handlerStep (h : s.Quiet) {at' : HandlerAt} (hat : s.handler = some at') (timeout : Bool) :
    (s.handlerStep timeout at').Quiet ∧ (s.handlerStep timeout at').loopLeft < s.loopLeft := by
  have hinv := h.inv.handlerStep hat timeout
  have hquiet := h.handler at' hat
  cases at' with
  | isr => exact h.handlerStep_isr hat timeout
  | txEmpty i => exact h.handlerStep_txEmpty hat timeout
  | disableRead =>
    refine ⟨⟨hinv, h.rxBuf, h.rxOverrun, fun a ha => ?_⟩, ?_⟩
    · obtain rfl := Option.some.inj ha
      trivial
    · simp only [Uart.handlerStep, loopLeft, hat]
      exact Nat.lt_succ_self _
  | disableWrite ier =>
    have hwrite := h.inv.write_ier (ier &&& ~~~ierTxRdy)
    simp only [Uart.handlerStep, hwrite] at hinv ⊢
    refine ⟨⟨hinv, h.rxBuf, h.rxOverrun, fun a ha => ?_⟩, ?_⟩
    · obtain rfl := Option.some.inj ha
      trivial
    · have htx : ¬ P16550.TxEmpty { s.dev with ier := ier &&& ~~~ierTxRdy } := not_txEmpty_disable ier
      simp only [loopLeft, hat, disableLeft, if_neg htx]
      exact Nat.lt_succ_self _
  | rxData => exact hquiet.elim
  | timeoutStatus => exact hquiet.elim
  | timeoutData => exact hquiet.elim
  | lineStatus => exact hquiet.elim
  | modemStatus => exact hquiet.elim

/-- **A step keeps the state quiet**, and less is left of the loop after an access of the handler. -/
theorem Quiet.step (h : s.Quiet) {op : Op} (hop : op.NoInput) (hs : s.step op = some s') :
    s'.Quiet ∧ s'.loopLeft + (if op.isHandler then 1 else 0) ≤ s.loopLeft := by
  have hinv := h.inv.step hs
  cases op with
  | enter => exact hop.elim
  | input => exact hop.elim
  | handler timeout =>
    obtain ⟨at', hat, rfl⟩ := Option.map_eq_some_iff.mp hs
    exact h.handlerStep hat timeout
  | putchar c =>
    rw [Uart.step] at hs
    split_ifs at hs with hidle
    obtain rfl := Option.some.inj hs
    refine ⟨⟨hinv, h.rxBuf, h.rxOverrun, by simp [hidle]⟩, ?_⟩
    simp [loopLeft, hidle, Op.isHandler]
  | getchar =>
    rw [Uart.step] at hs
    split_ifs at hs with hidle
    obtain rfl := Option.some.inj hs
    exact ⟨⟨hinv, h.rxBuf, h.rxOverrun, h.handler⟩, le_rfl⟩
  | xmitRead task =>
    rw [Uart.step] at hs
    split_ifs at hs
    obtain rfl := Option.some.inj hs
    exact ⟨⟨hinv, h.rxBuf, h.rxOverrun, h.handler⟩, le_rfl⟩
  | xmitWrite task =>
    rw [Uart.step] at hs
    split_ifs at hs with hidle
    -- the task writes the interrupt enable register while the handler is not there
    obtain ⟨ier, -, rfl⟩ := Option.map_eq_some_iff.mp hs
    rw [h.inv.write_ier] at hinv ⊢
    refine ⟨⟨hinv, h.rxBuf, h.rxOverrun, by simp [hidle]⟩, ?_⟩
    simp [loopLeft, hidle, Op.isHandler]
  | drain =>
    rw [Uart.step] at hs
    split at hs
    · obtain rfl := Option.some.inj hs
      exact ⟨⟨hinv, h.rxBuf, h.rxOverrun, h.handler⟩, le_rfl⟩
    · exact absurd hs (by simp)
  | tick =>
    rw [Uart.step] at hs
    split_ifs at hs
    obtain rfl := Option.some.inj hs
    exact ⟨⟨hinv, h.rxBuf, h.rxOverrun, h.handler⟩, le_rfl⟩
  | sample timeout =>
    rw [Uart.step] at hs
    split_ifs at hs
    obtain rfl := Option.some.inj hs
    exact ⟨⟨hinv, h.rxBuf, h.rxOverrun, h.handler⟩, le_rfl⟩
  | receive =>
    rw [Uart.step] at hs
    split at hs
    · obtain rfl := Option.some.inj hs
      exact ⟨⟨hinv, h.rxBuf, h.rxOverrun, h.handler⟩, le_rfl⟩
    · exact absurd hs (by simp)
  | irq =>
    obtain ⟨line, irq, lastIrq, rfl⟩ := irqStep_eq hs
    exact ⟨⟨hinv, h.rxBuf, h.rxOverrun, h.handler⟩, le_rfl⟩

/-- **The loop ends** if there is nothing to read, and no overrun. -/
theorem Quiet.loopEnds (h : s.Quiet) : s.LoopEnds :=
  ⟨s.loopLeft, fun _ _ hops hrun =>
    countP_le_of_decreases Uart.step (fun _ _ _ h hop hs => h.step hop hs) h hops hrun⟩

/-! ## The overrun at the read of the line status -/

/-- The handler reads the line status for an overrun. -/
def Pending (s : Uart) : Prop := s.handler = some .lineStatus → s.dev.rxOverrun = true

/-- The handler reads the line status if the identification register reports it. -/
theorem overrun_of_dispatch (h : s.Inv) {timeout : Bool}
    (hat : HandlerAt.dispatch (s.dev.read timeout 2).1 s.txRing = some .lineStatus) : s.dev.rxOverrun = true := by
  -- the values that the register can have, each of which `uart_handler` has a case for
  have hid := P16550.identified h.fifoEnabled timeout
  have hread : HandlerAt.dispatch (s.dev.interruptIdentificationRegister timeout) s.txRing = some .lineStatus := hat
  generalize hisr : s.dev.interruptIdentificationRegister timeout = isr at hid hread
  cases hid with
  | lineStatus =>
    have hvalue : (s.dev.read timeout 2).1 = 0xC6 := hisr
    have hreports : s.dev.ReportsLineStatus timeout := by
      rw [P16550.ReportsLineStatus, hvalue]
      decide
    exact P16550.overrun_of_reports hreports
  | txEmpty =>
    have htx : (if s.txRing.items ≠ [] then .txEmpty 0 else .disableRead) = HandlerAt.lineStatus :=
      Option.some.inj hread
    split_ifs at htx
  | rxData => exact absurd (Option.some.inj hread) (by simp)
  | fifoTimeout => exact absurd (Option.some.inj hread) (by simp)
  | noInterrupt => exact absurd hread (by simp [HandlerAt.dispatch])

theorem Pending.handlerStep (hi : s.Inv) {at' : HandlerAt} {timeout : Bool} :
    (s.handlerStep timeout at').Pending := by
  intro hat
  cases at' with
  | isr =>
    have hover : s.dev.rxOverrun = true := overrun_of_dispatch hi hat
    exact hover
  | rxData i =>
    have hnext := Option.some.inj hat
    split_ifs at hnext
  | timeoutStatus =>
    have hnext := Option.some.inj hat
    split_ifs at hnext
  | txEmpty i =>
    cases hring : s.txRing.items with
    | nil =>
      simp only [Uart.handlerStep, hring] at hat
      exact absurd (Option.some.inj hat) (by simp)
    | cons data rest =>
      simp only [Uart.handlerStep, hring] at hat
      have hnext := Option.some.inj hat
      split_ifs at hnext
  | timeoutData => exact absurd (Option.some.inj hat) (by simp)
  | lineStatus => exact absurd (Option.some.inj hat) (by simp)
  | disableRead => exact absurd (Option.some.inj hat) (by simp)
  | disableWrite => exact absurd (Option.some.inj hat) (by simp)
  | modemStatus => exact absurd (Option.some.inj hat) (by simp)

/-- Every step keeps it: only a read of the line status clears an overrun. -/
theorem Pending.step (hi : s.Inv) (h : s.Pending) {op : Op} (hs : s.step op = some s') : s'.Pending := by
  cases op with
  | enter =>
    rw [Uart.step] at hs
    split_ifs at hs
    obtain rfl := Option.some.inj hs
    exact fun hat => absurd (Option.some.inj hat) (by simp)
  | handler timeout =>
    obtain ⟨at', -, rfl⟩ := Option.map_eq_some_iff.mp hs
    exact Pending.handlerStep hi
  | input char =>
    by_cases hloop : s.loop = .select
    · rw [Uart.step, if_pos hloop] at hs
      obtain rfl := Option.some.inj hs
      have hinput : s.dev.devStep (.input char) = some (s.dev.input char) := rfl
      exact fun hat => P16550.rxOverrun_device (h hat) (show DevOp.IsDevice (.input char) from trivial) hinput
    · rw [Uart.step, if_neg hloop] at hs
      exact absurd hs (by simp)
  | xmitWrite task =>
    rw [Uart.step] at hs
    split_ifs at hs with hidle
    obtain ⟨ier, -, rfl⟩ := Option.map_eq_some_iff.mp hs
    exact fun hat => absurd (hidle.symm.trans hat) (by simp)
  | drain =>
    rw [Uart.step] at hs
    split at hs
    · obtain rfl := Option.some.inj hs
      exact h
    · exact absurd hs (by simp)
  | receive =>
    rw [Uart.step] at hs
    split at hs
    · obtain rfl := Option.some.inj hs
      exact h
    · exact absurd hs (by simp)
  | irq =>
    obtain ⟨line, irq, lastIrq, rfl⟩ := irqStep_eq hs
    exact h
  | _ =>
    -- the other steps change neither where the handler is nor the device
    rw [Uart.step] at hs
    split_ifs at hs
    obtain rfl := Option.some.inj hs
    exact h

/-- In a run, the line status is read for an overrun. -/
theorem pending_run {s₀ : Uart} (h₀ : s₀.Initialized) {ops : List Op} (hrun : run Uart.step s₀ ops = some s) :
    s.Inv ∧ s.Pending := by
  refine run_invariant Uart.step (P := fun s => s.Inv ∧ s.Pending) ?_ ⟨h₀.inv, fun hat => ?_⟩ hrun
  · rintro s op s' ⟨hi, h⟩ hs
    exact ⟨hi.step hs, Pending.step hi h hs⟩
  · rw [h₀.handler] at hat
    exact absurd hat (by simp)

/-- After the overrun was acknowledged there is nothing to read. -/
theorem quiet_afterLineStatus (hi : s.Inv) (hat : s.handler = some .lineStatus) (hrx : s.dev.rxBuf = [])
    (htx : s.dev.txBuf ≠ []) (hoverrun : s.dev.rxOverrun = true) : s.afterLineStatus.Quiet := by
  have hread : s.dev.read false 5 = (0x02, { s.dev with rxOverrun := false }) :=
    P16550.lineStatusRegister_of_clears hrx htx hoverrun
  have hinv : s.afterLineStatus.Inv := hi.handlerStep hat false
  have hafter : s.afterLineStatus = { s with dev := { s.dev with rxOverrun := false }, handler := some .isr } := by
    rw [afterLineStatus, Uart.handlerStep, hread]
  rw [hafter] at hinv ⊢
  refine ⟨hinv, hrx, rfl, fun a ha => ?_⟩
  obtain rfl := Option.some.inj ha
  trivial

/-! ## The loop that does not end -/

/-- With empty queues the handler comes back to where it was. -/
theorem handler_comes_back (hi : s.Inv) (hat : s.handler = some .lineStatus) (hrx : s.dev.rxBuf = [])
    (htx : s.dev.txBuf = []) (hoverrun : s.dev.rxOverrun = true) :
    run Uart.step s [.handler false, .handler false] = some s := by
  have hread : s.dev.read false 5 = (0x40 ||| 0x20, s.dev) := by
    simp [P16550.read, P16550.lineStatusRegister, hrx, htx]
  -- the overrun ranks above the transmitter that is empty
  have hisr : s.dev.read false 2 = (0xC6, s.dev) := by
    have hlevel := hi.rxTriggerLevel
    have hvalue : iirFifoEnabled ||| iirLineStatus = 0xC6 := by decide
    simp [P16550.read, P16550.interruptIdentificationRegister, hi.fifoEnabled, hlevel, hrx, hoverrun, rxFifoTrig,
      hvalue]
  have hfirst : s.step (.handler false) = some { s with handler := some .isr } := by
    simp only [Uart.step, hat, Option.map_some, Uart.handlerStep, hread]
  have hsecond : Uart.step { s with handler := some .isr } (.handler false) = some s := by
    simp only [Uart.step, Option.map_some, Uart.handlerStep, hisr]
    rw [show HandlerAt.dispatch 0xC6 s.txRing = some .lineStatus from rfl, ← hat]
  rw [run_cons, hfirst, Option.bind_some, run_cons, hsecond, Option.bind_some, run_nil]

theorem run_replicate (hi : s.Inv) (hat : s.handler = some .lineStatus) (hrx : s.dev.rxBuf = [])
    (htx : s.dev.txBuf = []) (hoverrun : s.dev.rxOverrun = true) (n : ℕ) :
    run Uart.step s (List.replicate (2 * n) (.handler false)) = some s := by
  induction n with
  | zero => rfl
  | succ n ih =>
    have hback := handler_comes_back hi hat hrx htx hoverrun
    obtain ⟨t, hfirst, hsecond⟩ := exists_of_run_cons Uart.step hback
    rw [Nat.mul_succ, List.replicate_succ, List.replicate_succ, run_cons, hfirst, Option.bind_some]
    obtain ⟨t', ht', hnil⟩ := exists_of_run_cons Uart.step hsecond
    obtain rfl : t' = s := Option.some.inj hnil
    rw [run_cons, ht', Option.bind_some]
    exact ih

/-- **The loop that does not end.** -/
theorem not_loopEnds (hi : s.Inv) (hat : s.handler = some .lineStatus) (hrx : s.dev.rxBuf = [])
    (htx : s.dev.txBuf = []) (hoverrun : s.dev.rxOverrun = true) : ¬ s.afterLineStatus.LoopEnds := by
  rintro ⟨n, hn⟩
  have hrun := run_replicate hi hat hrx htx hoverrun (n + 1)
  rw [Nat.mul_succ, List.replicate_succ] at hrun
  obtain ⟨t, hfirst, hrest⟩ := exists_of_run_cons Uart.step hrun
  have ht : t = s.afterLineStatus := by
    rw [Uart.step, hat] at hfirst
    exact (Option.some.inj hfirst).symm
  rw [ht] at hrest
  have hle := hn _ s (fun op hop => by rw [List.eq_of_mem_replicate hop]; trivial) hrest
  have hhandler : (Op.handler false).isHandler = true := rfl
  -- the handler makes one access in each step of the run, which is longer than the bound
  rw [List.countP_replicate, if_pos hhandler] at hle
  omega

end Uart

/-- **The acknowledgement of an overrun, exactly.** Whatever guest reads the identification register, gets
`IIR_LINE_STATUS`, and reads the line status after the device has moved any bytes: the read shows the overrun,
and it is gone, if and only if there is nothing to read and something to transmit. In every run of the driver,
where its handler reads the line status, that is also when its loop ends as long as no input arrives. -/
theorem line_status_acknowledged_iff (u : P16550) (timeout : Bool) (moves : List DevOp) (s₀ : Uart)
    (ops : List Uart.Op) :
    (u.ReportsLineStatus timeout → (∀ op ∈ moves, op.IsDevice) → ∀ u', run P16550.devStep u moves = some u' →
      (u'.Acknowledges ↔ u'.rxBuf = [] ∧ u'.txBuf ≠ [])) ∧
    (s₀.Initialized → ∀ s, run Uart.step s₀ ops = some s → s.handler = some .lineStatus →
      (s.dev.Acknowledges ∧ s.afterLineStatus.LoopEnds ↔ s.dev.rxBuf = [] ∧ s.dev.txBuf ≠ [])) := by
  constructor
  · intro hreports hmoves u' hrun
    have hoverrun : u'.rxOverrun = true :=
      run_invariant_of_forall P16550.devStep (fun _ _ _ h hop hs => P16550.rxOverrun_device h hop hs)
        (P16550.overrun_of_reports hreports) hmoves hrun
    exact P16550.acknowledges_iff hoverrun
  · intro h₀ s hrun hat
    obtain ⟨hi, hpending⟩ := Uart.pending_run h₀ hrun
    have hoverrun := hpending hat
    rw [P16550.acknowledges_iff hoverrun]
    constructor
    · exact And.left
    · rintro ⟨hrx, htx⟩
      exact ⟨⟨hrx, htx⟩, (Uart.quiet_afterLineStatus hi hat hrx htx hoverrun).loopEnds⟩

/-- A byte of input: it is sampled, and the sample is another one than before if `raises`. -/
def inputOps (raises : Bool) : List Uart.Op :=
  .input 0x41 :: .sample false :: .receive :: .irq :: if raises then [.irq] else []

/-- 17 bytes of input, of which the handler reads 14, and 12 more, so that it reads 14 again; then it reads
the line status for the overrun. -/
def overrunOps : List Uart.Op :=
  List.flatten [(List.replicate 13 (inputOps false)).flatten, inputOps true,
    (List.replicate 3 (inputOps false)).flatten, .enter :: List.replicate 15 (.handler false), inputOps true,
    (List.replicate 10 (inputOps false)).flatten, inputOps true, List.replicate 16 (.handler false)]

/-- A byte to transmit, which the handler puts into the queue of the device; then the same. -/
def transmitOps : List Uart.Op :=
  .putchar 0x42 :: .xmitRead 0 :: .xmitWrite 0 :: .enter :: .handler false :: .handler false :: .handler false ::
    overrunOps

/-- With a byte to transmit the overrun is acknowledged, and the loop ends. -/
theorem line_status_acknowledged_transmitting :
    ∃ s, run Uart.step Uart.boot transmitOps = some s ∧ s.dev.Acknowledges ∧ s.afterLineStatus.LoopEnds := by
  have hsome : (run Uart.step Uart.boot transmitOps).map (fun s => (s.handler, s.dev.rxBuf, s.dev.txBuf)) =
      some (some .lineStatus, [], [0x42]) := by
    decide +kernel
  obtain ⟨s, hrun, hs⟩ := Option.map_eq_some_iff.mp hsome
  simp only [Prod.mk.injEq] at hs
  obtain ⟨hat, hrx, htx⟩ := hs
  have hiff := (line_status_acknowledged_iff Uart.boot.dev false [] Uart.boot transmitOps).2 Uart.initialized_boot
  refine ⟨s, hrun, (hiff s hrun hat).mpr ⟨hrx, ?_⟩⟩
  rw [htx]
  exact List.cons_ne_nil _ _

/-- With nothing to transmit the line status shows that instead, the overrun stays, and the handler comes back
for ever. -/
theorem not_acknowledges_empty :
    ∃ s, run Uart.step Uart.boot overrunOps = some s ∧ s.handler = some .lineStatus ∧
      (s.dev.read false 5).1 = 0x60 ∧ run Uart.step s [.handler false, .handler false] = some s ∧
      ¬ s.dev.Acknowledges ∧ ¬ s.afterLineStatus.LoopEnds := by
  have hsome : (run Uart.step Uart.boot overrunOps).map (fun s => (s.handler, s.dev.rxBuf, s.dev.txBuf)) =
      some (some .lineStatus, [], []) := by
    decide +kernel
  obtain ⟨s, hrun, hs⟩ := Option.map_eq_some_iff.mp hsome
  simp only [Prod.mk.injEq] at hs
  obtain ⟨hat, hrx, htx⟩ := hs
  obtain ⟨hi, hpending⟩ := Uart.pending_run Uart.initialized_boot hrun
  have hoverrun := hpending hat
  refine ⟨s, hrun, hat, ?_, Uart.handler_comes_back hi hat hrx htx hoverrun, fun h => ?_,
    Uart.not_loopEnds hi hat hrx htx hoverrun⟩
  · have hempty : (0x40 : UInt8) ||| 0x20 = 0x60 := by decide
    simp [P16550.read, P16550.lineStatusRegister, hrx, htx, hempty]
  · exact ((P16550.acknowledges_iff hoverrun).mp h).2 htx

end I80k.Vboard

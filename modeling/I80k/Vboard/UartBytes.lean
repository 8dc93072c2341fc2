import I80k.Vboard.Uart

/-!
# The bytes cross the UART unchanged

The driver moves 16 bytes, or 14, on the strength of one read of the interrupt identification register, while
the device goes on. It may: between that read and the last byte only the driver puts bytes into `tx_buf`, and
only the driver takes bytes out of `rx_buf`. So after `i` bytes there are at most `i` in the first, and at
least `14 - i` in the second.

## Main definitions

* `Uart.Clean`: the bytes cross in order, and none is lost
* `Uart.QueuesAt`: what the position in the handler says about the queues

## Main results

* `Uart.Inv.handlerStep`: an access of the handler
* `uart_bytes_unchanged`: the bytes cross unchanged, in every run
-/

namespace I80k.Vboard

open Kernel StepSystem

namespace Uart

/-- The bytes taken off `tx_buf`, with those in it, are the bytes dequeued from `tx_ring`, and none was written
to a full queue; the bytes queued into `rx_ring` are the first ones of those accepted into `rx_buf`, and none
was read from an empty queue. -/
structure Clean (s : Uart) : Prop where
  tx : s.stdout ++ s.dev.txBuf = s.dequeued
  dropped : s.dropped = []
  rx : s.queued <+: s.accepted
  emptyReads : s.emptyReads = 0

/-- What the position in the handler says about the queues. -/
def QueuesAt (u : P16550) : HandlerAt → Prop
  | .rxData i => rxFifoTrig ≤ u.rxBuf.length + i ∧ i < rxFifoTrig
  | .timeoutData => u.rxBuf ≠ []
  | .txEmpty i => u.txBuf.length ≤ i ∧ i < txFifoSz
  | _ => True

/-- The invariant. The registers are those of `uart_initialize`, but for the interrupts that are enabled. -/
structure Inv (s : Uart) : Prop where
  fcr : s.dev.fcr = 0xC7
  lcr : s.dev.lcr = 0x03
  tx : s.stdout ++ s.dev.txBuf = s.dequeued
  dropped : s.dropped = []
  rx : s.accepted = s.queued ++ s.dev.rxBuf
  emptyReads : s.emptyReads = 0
  handler : ∀ at' ∈ s.handler, QueuesAt s.dev at'

variable {s s' : Uart}

theorem Inv.clean (h : s.Inv) : s.Clean where
  tx := h.tx
  dropped := h.dropped
  rx := ⟨s.dev.rxBuf, h.rx.symm⟩
  emptyReads := h.emptyReads

theorem Initialized.inv (h : s.Initialized) : s.Inv := by
  obtain ⟨u, div, hempty, hdev⟩ := h.dev
  rw [uartInitialize_eq] at hdev
  refine ⟨by rw [hdev], by rw [hdev], ?_, h.dropped, ?_, h.emptyReads, by simp [h.handler]⟩
  · rw [h.stdout, h.dequeued, hdev]
    exact hempty
  · rw [h.queued, h.accepted, List.nil_append]

/-- The divisor latch is not accessible. -/
theorem Inv.not_hasDlab (h : s.Inv) : ¬ s.dev.HasDlab := by
  unfold P16550.HasDlab
  rw [h.lcr]
  decide

theorem Inv.fifoEnabled (h : s.Inv) : s.dev.FifoEnabled := by
  unfold P16550.FifoEnabled
  rw [h.fcr]
  decide

theorem Inv.rxTriggerLevel (h : s.Inv) : s.dev.rxTriggerLevel = rxFifoTrig := by
  unfold P16550.rxTriggerLevel
  rw [h.fcr]
  rfl

/-- What the invariant is about: the device, the position in the handler and the histories. -/
def transfer (s : Uart) :
    P16550 × Option HandlerAt × List UInt8 × List UInt8 × List UInt8 × List UInt8 × List UInt8 × ℕ :=
  (s.dev, s.handler, s.stdout, s.dequeued, s.dropped, s.accepted, s.queued, s.emptyReads)

/-- Steps that leave that keep the invariant. -/
theorem Inv.congr (h : s.Inv) (hsame : s'.transfer = s.transfer) : s'.Inv := by
  simp only [transfer, Prod.mk.injEq] at hsame
  obtain ⟨hdev, hhandler, hstdout, hdequeued, hdropped, haccepted, hqueued, hempty⟩ := hsame
  constructor
  · exact hdev ▸ h.fcr
  · exact hdev ▸ h.lcr
  · rw [hstdout, hdev, hdequeued]
    exact h.tx
  · exact hdropped.trans h.dropped
  · rw [haccepted, hqueued, hdev]
    exact h.rx
  · exact hempty.trans h.emptyReads
  · rw [hhandler, hdev]
    exact h.handler

/-! ## Accesses of the handler -/

/-- The branch that the handler takes. -/
theorem Inv.dispatch (h : s.Inv) (timeout : Bool) :
    ∀ at' ∈ HandlerAt.dispatch (s.dev.read timeout 2).1 s.txRing, QueuesAt s.dev at' := by
  show ∀ at' ∈ HandlerAt.dispatch (s.dev.interruptIdentificationRegister timeout) s.txRing, _
  have hid := P16550.identified h.fifoEnabled timeout
  generalize s.dev.interruptIdentificationRegister timeout = isr at hid
  intro at' hat
  -- One case per value of the register; the branches that move bytes know the length of their queue.
  cases hid with
  | rxData hlevel =>
    obtain rfl : .rxData 0 = at' := Option.some.inj hat
    rw [h.rxTriggerLevel] at hlevel
    exact ⟨hlevel, by decide⟩
  | fifoTimeout =>
    obtain rfl : .timeoutStatus = at' := Option.some.inj hat
    trivial
  | lineStatus =>
    obtain rfl : .lineStatus = at' := Option.some.inj hat
    trivial
  | txEmpty hempty =>
    obtain rfl : (if s.txRing.items ≠ [] then .txEmpty 0 else .disableRead) = at' := Option.some.inj hat
    split_ifs
    · exact ⟨by simp [hempty], by decide⟩
    · trivial
  | noInterrupt => cases hat

/-- A byte is read: it is the first one of the queue. -/
theorem Inv.receiveByte (h : s.Inv) (hne : s.dev.rxBuf ≠ []) {at' : HandlerAt}
    (hat : QueuesAt { s.dev with rxBuf := s.dev.rxBuf.tail } at') :
    Inv { s.receiveByte with handler := some at' } := by
  obtain ⟨data, rest, hbuf⟩ := List.exists_cons_of_ne_nil hne
  have hread : s.dev.read false 0 = (data, { s.dev with rxBuf := rest }) := by
    simp [P16550.read, h.not_hasDlab, hbuf]
  rw [hbuf, List.tail_cons] at hat
  unfold Uart.receiveByte
  rw [hread]
  refine ⟨h.fcr, h.lcr, h.tx, h.dropped, ?_, ?_, ?_⟩
  · show s.accepted = s.queued ++ [data] ++ rest
    rw [h.rx, hbuf]
    simp
  · show (if s.dev.rxBuf = [] then s.emptyReads + 1 else s.emptyReads) = 0
    rw [if_neg hne]
    exact h.emptyReads
  · rintro at'' hat''
    obtain rfl := Option.some.inj hat''
    exact hat

/-- A byte is written: there is room for it. -/
theorem Inv.transmitByte (h : s.Inv) {data : UInt8} {rest : List UInt8} (hroom : s.dev.txBuf.length < queueSz)
    {at' : HandlerAt} (hat : QueuesAt { s.dev with txBuf := s.dev.txBuf ++ [data] } at') :
    Inv { s.transmitByte data rest with handler := some at' } := by
  have hwrite : s.dev.write data 0 = { s.dev with txBuf := s.dev.txBuf ++ [data] } := by
    simp [P16550.write, h.not_hasDlab, hroom]
  unfold Uart.transmitByte
  rw [hwrite, if_pos hroom]
  refine ⟨h.fcr, h.lcr, ?_, h.dropped, h.rx, h.emptyReads, ?_⟩
  · show s.stdout ++ (s.dev.txBuf ++ [data]) = s.dequeued ++ [data]
    rw [← h.tx, List.append_assoc]
  · rintro at'' hat''
    obtain rfl := Option.some.inj hat''
    exact hat

/-- A write to another register leaves the queues. -/
theorem Inv.withDev (h : s.Inv) {u : P16550} (hfcr : u.fcr = s.dev.fcr) (hlcr : u.lcr = s.dev.lcr)
    (hrx : u.rxBuf = s.dev.rxBuf) (htx : u.txBuf = s.dev.txBuf) {at' : Option HandlerAt}
    (hat : ∀ a ∈ at', QueuesAt u a) : Inv { s with dev := u, handler := at' } :=
  ⟨hfcr.trans h.fcr, hlcr.trans h.lcr, by rw [htx]; exact h.tx, h.dropped, by rw [hrx]; exact h.rx,
    h.emptyReads, hat⟩

/-- The handler goes on, at an access that needs nothing of the queues but what it knows. -/
theorem Inv.goto (h : s.Inv) {u : P16550} (hfcr : u.fcr = s.dev.fcr) (hlcr : u.lcr = s.dev.lcr)
    (hrx : u.rxBuf = s.dev.rxBuf) (htx : u.txBuf = s.dev.txBuf) {at' : HandlerAt} (hat : QueuesAt u at') :
    Inv { s with dev := u, handler := some at' } := by
  refine h.withDev hfcr hlcr hrx htx fun a ha => ?_
  obtain rfl := Option.some.inj ha
  exact hat

/-- A write of the interrupts to enable. -/
theorem Inv.write_ier (h : s.Inv) (data : UInt8) : s.dev.write data 1 = { s.dev with ier := data } :=
  if_neg h.not_hasDlab

/-- **An access of the handler.** -/
theorem Inv.handlerStep (h : s.Inv) {at' : HandlerAt} (hat : s.handler = some at') (timeout : Bool) :
    (s.handlerStep timeout at').Inv := by
  have hqueues : QueuesAt s.dev at' := h.handler at' hat
  cases at' with
  | isr => exact h.withDev rfl rfl rfl rfl (h.dispatch timeout)
  | rxData i =>
    obtain ⟨hlen, hi⟩ := hqueues
    -- At least `14 - i` bytes are left, and this is a turn before the last.
    have hne : s.dev.rxBuf ≠ [] := by
      intro hnil
      rw [hnil] at hlen
      simp only [List.length_nil, Nat.zero_add] at hlen
      omega
    refine h.receiveByte hne ?_
    split_ifs with hmore
    · -- One byte less, one turn more.
      refine ⟨?_, hmore⟩
      simp only [List.length_tail]
      have hpos := List.length_pos_iff.mpr hne
      omega
    · trivial
  | timeoutStatus =>
    obtain ⟨hready, hrx, htx, hfcr, hlcr⟩ := P16550.lineStatusRegister_spec (u := s.dev)
    have hnext : QueuesAt s.dev.lineStatusRegister.2
        (if s.dev.lineStatusRegister.1 &&& 1 ≠ 0 then .timeoutData else .isr) := by
      by_cases hstatus : s.dev.lineStatusRegister.1 &&& 1 ≠ 0
      · rw [if_pos hstatus, QueuesAt, hrx]
        exact hready.mp hstatus
      · rw [if_neg hstatus]
        trivial
    exact h.goto hfcr hlcr hrx htx hnext
  | timeoutData => exact h.receiveByte hqueues trivial
  | lineStatus =>
    obtain ⟨-, hrx, htx, hfcr, hlcr⟩ := P16550.lineStatusRegister_spec (u := s.dev)
    exact h.goto hfcr hlcr hrx htx trivial
  | txEmpty i =>
    obtain ⟨hlen, hi⟩ := hqueues
    cases hring : s.txRing.items with
    | nil =>
      simp only [Uart.handlerStep, hring]
      exact h.goto rfl rfl rfl rfl trivial
    | cons data rest =>
      -- The bytes in the queue are at most those of the turns so far.
      simp only [Uart.handlerStep, hring]
      refine h.transmitByte (lt_of_le_of_lt hlen hi) ?_
      split_ifs with hmore
      · refine ⟨?_, hmore.1⟩
        simp only [List.length_append, List.length_singleton]
        omega
      · trivial
  | disableRead => exact h.goto rfl rfl rfl rfl trivial
  | disableWrite ier =>
    have hwrite := h.write_ier (ier &&& ~~~ierTxRdy)
    refine h.goto ?_ ?_ ?_ ?_ trivial
    all_goals rw [hwrite]
  | modemStatus => exact h.goto rfl rfl rfl rfl trivial

/-! ## The other steps -/

/-- `loop` takes a byte off `tx_buf`: there is more room in it. -/
theorem Inv.drain (h : s.Inv) {char : UInt8} {rest : List UInt8} (hbuf : s.dev.txBuf = char :: rest)
    (loop : LoopAt) :
    Inv { s with dev := { s.dev with txBuf := rest }, stdout := s.stdout ++ [char], loop := loop } := by
  refine ⟨h.fcr, h.lcr, ?_, h.dropped, h.rx, h.emptyReads, fun at' hat => ?_⟩
  · show s.stdout ++ [char] ++ rest = s.dequeued
    rw [← h.tx, hbuf]
    simp
  · -- A shorter `tx_buf` has at most as many bytes as before.
    have hqueues := h.handler at' hat
    cases at' with
    | txEmpty i =>
      rw [QueuesAt, hbuf, List.length_cons] at hqueues
      exact ⟨by show rest.length ≤ i; omega, hqueues.2⟩
    | rxData i => exact hqueues
    | timeoutData => exact hqueues
    | _ => trivial

/-- A byte of input: there are more bytes to read. -/
theorem Inv.input (h : s.Inv) (char : UInt8) (loop : LoopAt) :
    Inv { s with
      dev := s.dev.input char
      accepted := if s.dev.rxBuf.length < queueSz then s.accepted ++ [char] else s.accepted
      loop := loop } := by
  unfold P16550.input
  split_ifs with hroom
  · refine ⟨h.fcr, h.lcr, h.tx, h.dropped, ?_, h.emptyReads, fun at' hat => ?_⟩
    · show s.accepted ++ [char] = s.queued ++ (s.dev.rxBuf ++ [char])
      rw [h.rx, List.append_assoc]
    · -- A longer `rx_buf` has at least as many.
      have hqueues := h.handler at' hat
      cases at' with
      | rxData i =>
        refine ⟨?_, hqueues.2⟩
        have hlen := hqueues.1
        simp only [List.length_append, List.length_singleton]
        omega
      | timeoutData => simp [QueuesAt]
      | txEmpty i => exact hqueues
      | _ => trivial
  · exact ⟨h.fcr, h.lcr, h.tx, h.dropped, h.rx, h.emptyReads, h.handler⟩

/-- Every step keeps the invariant. -/
theorem Inv.step {op : Op} (h : s.Inv) (hs : s.step op = some s') : s'.Inv := by
  cases op with
  | enter =>
    simp only [Uart.step] at hs
    split_ifs at hs
    obtain rfl := Option.some.inj hs
    exact h.goto rfl rfl rfl rfl trivial
  | handler timeout =>
    obtain ⟨at', hat, rfl⟩ := Option.map_eq_some_iff.mp hs
    exact h.handlerStep hat timeout
  | putchar c =>
    simp only [Uart.step] at hs
    split_ifs at hs
    obtain rfl := Option.some.inj hs
    exact h.congr rfl
  | getchar =>
    simp only [Uart.step] at hs
    split_ifs at hs
    obtain rfl := Option.some.inj hs
    exact h.congr rfl
  | xmitRead task =>
    simp only [Uart.step] at hs
    split_ifs at hs
    obtain rfl := Option.some.inj hs
    exact h.congr rfl
  | xmitWrite task =>
    simp only [Uart.step] at hs
    split_ifs at hs with hidle
    obtain ⟨ier, -, rfl⟩ := Option.map_eq_some_iff.mp hs
    rw [h.write_ier]
    -- The tasks run only while the handler does not.
    exact ⟨h.fcr, h.lcr, h.tx, h.dropped, h.rx, h.emptyReads, by simp [hidle]⟩
  | drain =>
    simp only [Uart.step] at hs
    split at hs
    · next char rest hloop hbuf => exact Option.some.inj hs ▸ h.drain hbuf .sample
    · cases hs
  | input char =>
    by_cases hloop : s.loop = .select
    · rw [Uart.step, if_pos hloop] at hs
      exact Option.some.inj hs ▸ h.input char .sample
    · rw [Uart.step, if_neg hloop] at hs
      cases hs
  | tick =>
    simp only [Uart.step] at hs
    split_ifs at hs
    obtain rfl := Option.some.inj hs
    exact h.congr rfl
  | sample timeout =>
    simp only [Uart.step] at hs
    split_ifs at hs
    obtain rfl := Option.some.inj hs
    exact h.congr rfl
  | receive =>
    simp only [Uart.step] at hs
    split at hs
    · obtain rfl := Option.some.inj hs
      exact h.congr rfl
    · cases hs
  | irq =>
    simp only [Uart.step, irqStep] at hs
    split at hs
    · cases hs
    · split_ifs at hs
      all_goals
        obtain rfl := Option.some.inj hs
        exact h.congr rfl
    · obtain rfl := Option.some.inj hs
      exact h.congr rfl

end Uart

/-- **The bytes cross the UART unchanged.** From every state after `uart_initialize`, in every interleaving of
the accesses of the driver with the steps of the device, whatever the input and whenever the timeouts: the bytes
taken off `tx_buf`, followed by those still in it, are exactly the bytes dequeued from `tx_ring`, and none is
dropped; the bytes queued into `rx_ring` are a prefix of those accepted into `rx_buf`, and none is read from an
empty queue. -/
theorem uart_bytes_unchanged (s₀ : Uart) (h₀ : s₀.Initialized) (ops : List Uart.Op) :
    Always Uart.step Uart.Clean s₀ ops := by
  have hinv : Always Uart.step Uart.Inv s₀ ops :=
    always_of_invariant (fun s op s' h hs => h.step hs) h₀.inv ops
  exact hinv.imp fun s h => h.clean

/-- A task puts a byte and the handler transmits it, while another one comes in. -/
theorem uart_bytes_unchanged_boot :
    Uart.boot.Initialized ∧ Always Uart.step Uart.Clean Uart.boot
      [.putchar 0x41, .xmitRead 0, .xmitWrite 0, .enter, .handler false, .input 0x42, .handler false, .sample false,
        .handler false, .receive, .drain] :=
  ⟨Uart.initialized_boot, uart_bytes_unchanged _ Uart.initialized_boot _⟩

end I80k.Vboard

import I80k.Vboard.UartBytes

/-!
# The console

The functions of `kernel/console.c`, between the tasks and the driver. A call of `console_putchar` or `console_puts`
queues its bytes into `tx_ring` one after another and then enables the interrupt of the transmitter, in two accesses;
other tasks, the handler and the device take their steps in between. Until the console is bound to the UART the bytes
are only queued. `console_getchar` takes a byte off `rx_ring`.

A ring buffer that is full overwrites its oldest byte. So the terminal gets the bytes of the calls, those of each task
in their order, and all of them exactly if the tasks are never more than 511 bytes ahead of the handler.

## Main definitions

* `putcharBytes`, `putsBytes`: the bytes that a call queues
* `Console`: the driver and the device, with the calls of the tasks
* `Console.step`: one step
* `Console.Initialized`: in `uart_initialize`, before interrupts of the UART are enabled

## Main results

* `console_complete_iff`: no byte is lost as long as the tasks are not too far ahead, or behind
* `console_keeps_order`: none is made up, and those of each task are in their order
* `console_armed`: bytes that wait have the device ask for an interrupt
-/

namespace I80k.Vboard

open Kernel StepSystem

/-- `RINGBUF_SIZE`, less the byte that is not used. -/
def consoleRoom : ℕ := 511

/-- The bytes that `console_putchar` queues: a line feed is sent behind a carriage return. -/
def putcharBytes (c : UInt8) : List UInt8 := if c = 0x0A then [0x0D, c] else [c]

/-- The bytes that `console_puts` queues. -/
def putsBytes (text : List UInt8) : List UInt8 := text ++ [0x0D, 0x0A]

/-- The driver and the device, with the calls of the tasks. -/
structure Console extends Uart where
  binded : Bool
  /-- The bytes that are not queued yet, of the tasks that are inside of a call. -/
  calls : TaskId → Option (List UInt8)
  /-- The bytes of the calls so far. -/
  called : List (TaskId × List UInt8)
  /-- The bytes queued into `tx_ring`. -/
  written : List (TaskId × UInt8)
  /-- The bytes that `console_getchar` returned. -/
  received : List UInt8

namespace Console

variable (s : Console)

/-- A call with its bytes. -/
def call (task : TaskId) (bytes : List UInt8) : Option Console :=
  if s.handler = none ∧ s.calls task = none then
    some { s with
      calls := Function.update s.calls task (some bytes)
      called := s.called ++ [(task, bytes)] }
  else none

/-- The next statement of a call: a byte is queued, or it goes on in `uart_start_xmit` if the console is bound, and
returns from there. -/
def next (task : TaskId) : Option Console :=
  match s.calls task with
  | none => none
  | some (c :: rest) => (s.toUart.step (.putchar c)).map fun u => { s with
      toUart := u
      calls := Function.update s.calls task (some rest)
      written := s.written ++ [(task, c)] }
  | some [] =>
    if ¬ s.binded then
      if s.handler = none then some { s with calls := Function.update s.calls task none } else none
    else match s.xmit task with
    | none => (s.toUart.step (.xmitRead task)).map fun u => { s with toUart := u }
    | some _ => (s.toUart.step (.xmitWrite task)).map fun u => { s with
        toUart := u
        calls := Function.update s.calls task none }

/-- The end of `console_bind_uart`: it goes on in `uart_start_xmit` if bytes were queued before. -/
def bind (task : TaskId) : Option Console :=
  if s.handler = none ∧ s.calls task = none then
    some { s with
      binded := true
      calls := if s.txRing.items ≠ [] then Function.update s.calls task (some []) else s.calls }
  else none

/-- The steps of the handler and of the device. -/
def IsHardware : Uart.Op → Prop
  | .putchar _ | .getchar | .xmitRead _ | .xmitWrite _ => False
  | _ => True

instance : DecidablePred IsHardware
  | .putchar _ | .getchar | .xmitRead _ | .xmitWrite _ => .isFalse id
  | .enter | .handler _ | .drain | .input _ | .tick | .sample _ | .receive | .irq => .isTrue trivial

/-- The steps: a task calls `console_putchar` or `console_puts`, goes on in it, calls `console_getchar`, or
binds the console; or the handler or the device takes one. -/
inductive Op
  | putchar (task : TaskId) (c : UInt8)
  | puts (task : TaskId) (text : List UInt8)
  | next (task : TaskId)
  | getchar
  | bind (task : TaskId)
  | hardware (op : Uart.Op)

/-- One step. The result of `console_getchar` is -1 if there is no byte. -/
def step : Op → Option Console
  | .putchar task c => s.call task (putcharBytes c)
  | .puts task text => s.call task (putsBytes text)
  | .next task => s.next task
  | .getchar => (s.toUart.step .getchar).map fun u => { s with
      toUart := u
      received := s.received ++ s.rxRing.items.head?.toList }
  | .bind task => s.bind task
  | .hardware op => if IsHardware op then (s.toUart.step op).map fun u => { s with toUart := u } else none

/-- In `uart_initialize`, before the interrupts of the UART are enabled. What was queued before is counted as a call of
the task `main`. -/
structure Initialized (main : TaskId) : Prop where
  uart : s.toUart.Initialized
  xmit : ∀ task, s.xmit task = none
  txRing : s.txRing.mask = consoleRoom ∧ s.txRing.items.length ≤ consoleRoom
  rxRing : s.rxRing.mask = consoleRoom ∧ s.rxRing.items = []
  binded : s.binded = false
  calls : ∀ task, s.calls task = none
  called : s.called = [(main, s.txRing.items)]
  written : s.written = s.txRing.items.map fun c => (main, c)
  received : s.received = []

/-- The console after `console_initialize`, when `uart_initialize` has set up a new device. -/
def boot : Console where
  toUart := Uart.boot
  binded := false
  calls _ := none
  called := [(0, [])]
  written := []
  received := []

theorem initialized_boot : boot.Initialized 0 where
  uart := Uart.initialized_boot
  xmit _ := rfl
  txRing := ⟨rfl, Nat.zero_le _⟩
  rxRing := ⟨rfl, rfl⟩
  binded := rfl
  calls _ := rfl
  called := rfl
  written := rfl
  received := rfl

/-- A letter is printed before the console is bound, and sent; another one comes in. -/
def bootOps : List Op :=
  [.putchar 0 0x41, .next 0, .next 0, .bind 0, .next 0, .next 0, .hardware .enter, .hardware (.handler false),
    .hardware (.input 0x42), .hardware (.handler false), .hardware (.sample false), .hardware .receive,
    .hardware .drain]

example : (run Console.step boot bootOps).map (fun s => (s.stdout, s.dev.rxBuf)) = some ([0x41], [0x42]) := by rfl

/-! ## The interrupts that are enabled -/

/-- The bits of `IER_RX_RDY` and `IER_RX_LINE_STATUS`. -/
def RxEnabled (ier : UInt8) : Prop := ier &&& 0x05 = 0x05

theorem RxEnabled.setTx {ier : UInt8} (h : RxEnabled ier) : RxEnabled (ier ||| ierTxRdy) := by
  have hbits : ∀ b : BitVec 8, b &&& 0x05 = 0x05 → (b ||| 0x02) &&& 0x05 = 0x05 := by decide
  exact UInt8.toBitVec_inj.mp (hbits ier.toBitVec (UInt8.toBitVec_inj.mpr h))

theorem RxEnabled.clearTx {ier : UInt8} (h : RxEnabled ier) : RxEnabled (ier &&& ~~~ierTxRdy) := by
  have hmask : (~~~ierTxRdy) &&& 0x05 = 0x05 := by decide
  rw [RxEnabled, UInt8.and_assoc, hmask]
  exact h

theorem RxEnabled.dataAvailable {u : P16550} (h : RxEnabled u.ier) : u.RxDataAvailable := by
  have hbits : ∀ b : BitVec 8, b &&& 0x05 = 0x05 → b &&& 1 = 1 := by decide
  exact UInt8.toBitVec_inj.mp (hbits u.ier.toBitVec (UInt8.toBitVec_inj.mpr h))

theorem RxEnabled.lineStatus {u : P16550} (h : RxEnabled u.ier) : u.RxLineStatus := by
  have hbits : ∀ b : BitVec 8, b &&& 0x05 = 0x05 → b &&& 0x04 = 0x04 := by decide
  exact UInt8.toBitVec_inj.mp (hbits u.ier.toBitVec (UInt8.toBitVec_inj.mpr h))

theorem txEmpty_setTx (ier : UInt8) : (ier ||| ierTxRdy) &&& 0x02 = 0x02 := by
  have hbits : ∀ b : BitVec 8, (b ||| 0x02) &&& 0x02 = 0x02 := by decide
  exact UInt8.toBitVec_inj.mp (hbits ier.toBitVec)

theorem read_ier (u : P16550) (timeout : Bool) (reg : ℕ) : (u.read timeout reg).2.ier = u.ier := by
  unfold P16550.read P16550.lineStatusRegister
  split
  · split_ifs
    · rfl
    · split
      · rfl
      · rfl
  · split_ifs
    · rfl
    · rfl
  · rfl
  · rfl
  · rfl
  · split_ifs
    · rfl
    · rfl
    · rfl
    · rfl
  · rfl
  · rfl

end Console

namespace Uart

variable {s s' : Uart}

/-- The handler disables the interrupt of the transmitter only if there is nothing to send. -/
def DisablesAt (s : Uart) : HandlerAt → Prop
  | .disableRead => s.txRing.items = []
  | .disableWrite ier => s.txRing.items = [] ∧ Console.RxEnabled ier
  | _ => True

/-- The interrupts of the receiver are enabled, and stay so. -/
structure Ready (s : Uart) : Prop where
  ier : Console.RxEnabled s.dev.ier
  handler : ∀ at' ∈ s.handler, s.DisablesAt at'

/-- What a step of the handler or the device does to the rings and the interrupts that are enabled. -/
structure Moves (s s' : Uart) : Prop where
  ready : s'.Ready
  xmit : s'.xmit = s.xmit
  out : s'.dequeued ++ s'.txRing.items = s.dequeued ++ s.txRing.items
  txMask : s'.txRing.mask = s.txRing.mask
  fewer : s'.txRing.items.length ≤ s.txRing.items.length
  inp : s'.rxRing = s.rxRing ∧ s'.queued = s.queued ∨
    ∃ data, s'.rxRing = s.rxRing.queue data ∧ s'.queued = s.queued ++ [data]
  txEmpty : s'.txRing.items ≠ [] → s.dev.TxEmpty → s'.dev.TxEmpty

/-- A step that leaves the rings and the interrupts that are enabled. -/
theorem Ready.stays (h : s.Ready) (hier : s'.dev.ier = s.dev.ier) (hxmit : s'.xmit = s.xmit)
    (hdequeued : s'.dequeued = s.dequeued) (htx : s'.txRing = s.txRing) (hrx : s'.rxRing = s.rxRing)
    (hqueued : s'.queued = s.queued) (hhandler : ∀ at' ∈ s'.handler, s'.DisablesAt at') : s.Moves s' where
  ready := ⟨hier ▸ h.ier, hhandler⟩
  xmit := hxmit
  out := by rw [hdequeued, htx]
  txMask := by rw [htx]
  fewer := by rw [htx]
  inp := .inl ⟨hrx, hqueued⟩
  txEmpty _ htx := by
    rw [P16550.TxEmpty, hier]
    exact htx

/-- A byte is received. -/
theorem Ready.receiveByte (h : s.Ready) {at' : HandlerAt} (hat : ∀ s'' : Uart, s''.DisablesAt at') :
    s.Moves { s.receiveByte with handler := some at' } where
  ready.ier := by
    change Console.RxEnabled (s.dev.read false 0).2.ier
    rw [Console.read_ier]
    exact h.ier
  ready.handler _ ha := Option.some.inj ha ▸ hat _
  xmit := rfl
  out := rfl
  txMask := rfl
  fewer := le_rfl
  inp := .inr ⟨_, rfl, rfl⟩
  txEmpty _ htx := by
    change (s.dev.read false 0).2.ier &&& _ = _
    rw [Console.read_ier]
    exact htx

/-- Of two positions. -/
theorem disablesAt_ite {c : Prop} [Decidable c] {a b : HandlerAt} (ha : s.DisablesAt a) (hb : s.DisablesAt b) :
    s.DisablesAt (if c then a else b) := by
  split_ifs
  · exact ha
  · exact hb

theorem disablesAt_dispatch (s : Uart) (isr : UInt8) :
    ∀ at' ∈ HandlerAt.dispatch isr s.txRing, s.DisablesAt at' := by
  intro at' hat
  rw [HandlerAt.dispatch] at hat
  by_cases hdone : isr &&& 1 ≠ 0
  · rw [if_pos hdone] at hat
    cases hat
  · rw [if_neg hdone] at hat
    split at hat
    · exact Option.some.inj hat ▸ trivial
    · exact Option.some.inj hat ▸ trivial
    · exact Option.some.inj hat ▸ trivial
    · rw [← Option.some.inj hat]
      split_ifs with hring
      · trivial
      · exact not_not.mp hring
    · exact Option.some.inj hat ▸ trivial
    · exact Option.some.inj hat ▸ trivial

/-- A byte is sent. -/
theorem Ready.transmitByte (h : s.Ready) (hi : s.Inv) {data : UInt8} {rest : List UInt8} {at' : HandlerAt}
    (hring : s.txRing.items = data :: rest) (hat : ∀ s'' : Uart, s''.DisablesAt at') :
    s.Moves { s.transmitByte data rest with handler := some at' } := by
  have hier : (s.dev.write data 0).ier = s.dev.ier := by
    simp only [P16550.write, if_neg hi.not_hasDlab]
    split_ifs
    · rfl
    · rfl
  refine ⟨⟨?_, fun _ ha => Option.some.inj ha ▸ hat _⟩, rfl, ?_, rfl, ?_, .inl ⟨rfl, rfl⟩, fun _ htx => ?_⟩
  · change Console.RxEnabled (s.dev.write data 0).ier
    rw [hier]
    exact h.ier
  · change s.dequeued ++ [data] ++ rest = _
    rw [hring, List.append_assoc]
    rfl
  · rw [hring]
    exact Nat.le_succ _
  · change (s.dev.write data 0).ier &&& _ = _
    rw [hier]
    exact htx

theorem Ready.handlerStep (h : s.Ready) (hi : s.Inv) {at' : HandlerAt} (hat : s.handler = some at') (timeout : Bool) :
    s.Moves (s.handlerStep timeout at') := by
  have hdisables := h.handler at' hat
  cases at' with
  | isr => exact h.stays rfl rfl rfl rfl rfl rfl (disablesAt_dispatch s _)
  | rxData i => exact h.receiveByte fun _ => disablesAt_ite trivial trivial
  | timeoutStatus =>
    exact h.stays (Console.read_ier s.dev timeout 5) rfl rfl rfl rfl rfl fun _ ha =>
      Option.some.inj ha ▸ disablesAt_ite trivial trivial
  | timeoutData => exact h.receiveByte fun _ => trivial
  | lineStatus =>
    exact h.stays (Console.read_ier s.dev timeout 5) rfl rfl rfl rfl rfl fun _ ha => Option.some.inj ha ▸ trivial
  | txEmpty i =>
    cases hring : s.txRing.items with
    | nil =>
      simp only [Uart.handlerStep, hring]
      exact h.stays rfl rfl rfl rfl rfl rfl fun _ ha => Option.some.inj ha ▸ trivial
    | cons data rest =>
      simp only [Uart.handlerStep, hring]
      exact h.transmitByte hi hring fun _ => disablesAt_ite trivial trivial
  | disableRead =>
    refine h.stays rfl rfl rfl rfl rfl rfl fun _ ha => Option.some.inj ha ▸ ⟨hdisables, ?_⟩
    change Console.RxEnabled (if s.dev.HasDlab then (s.dev.dmsb, s.dev) else (s.dev.ier, s.dev)).1
    rw [if_neg hi.not_hasDlab]
    exact h.ier
  | disableWrite ier =>
    -- there is nothing to send
    have hwrite := hi.write_ier (ier &&& ~~~ierTxRdy)
    simp only [Uart.handlerStep, hwrite]
    exact ⟨⟨hdisables.2.clearTx, fun _ ha => Option.some.inj ha ▸ trivial⟩, rfl, rfl, rfl, le_rfl, .inl ⟨rfl, rfl⟩,
      fun hne => absurd hdisables.1 hne⟩
  | modemStatus =>
    exact h.stays (Console.read_ier s.dev timeout 6) rfl rfl rfl rfl rfl fun _ ha => Option.some.inj ha ▸ trivial

/-- **A step of the handler or the device.** -/
theorem Ready.hardware (h : s.Ready) (hi : s.Inv) {op : Op} (hop : Console.IsHardware op) (hs : s.step op = some s') :
    s.Moves s' := by
  cases op with
  | putchar c => exact hop.elim
  | getchar => exact hop.elim
  | xmitRead task => exact hop.elim
  | xmitWrite task => exact hop.elim
  | enter =>
    rw [Uart.step] at hs
    split_ifs at hs
    obtain rfl := Option.some.inj hs
    exact h.stays rfl rfl rfl rfl rfl rfl fun _ ha => Option.some.inj ha ▸ trivial
  | handler timeout =>
    obtain ⟨at', hat, rfl⟩ := Option.map_eq_some_iff.mp hs
    exact h.handlerStep hi hat timeout
  | drain =>
    rw [Uart.step] at hs
    split at hs
    · obtain rfl := Option.some.inj hs
      exact h.stays rfl rfl rfl rfl rfl rfl h.handler
    · cases hs
  | input char =>
    have hier : (s.dev.input char).ier = s.dev.ier := by
      rw [P16550.input]
      split_ifs
      · rfl
      · rfl
    rw [Uart.step] at hs
    by_cases hloop : s.loop = .select
    · rw [if_pos hloop] at hs
      obtain rfl := Option.some.inj hs
      exact h.stays hier rfl rfl rfl rfl rfl h.handler
    · rw [if_neg hloop] at hs
      cases hs
  | tick =>
    rw [Uart.step] at hs
    split_ifs at hs
    obtain rfl := Option.some.inj hs
    exact h.stays rfl rfl rfl rfl rfl rfl h.handler
  | sample timeout =>
    rw [Uart.step] at hs
    split_ifs at hs
    obtain rfl := Option.some.inj hs
    exact h.stays rfl rfl rfl rfl rfl rfl h.handler
  | receive =>
    rw [Uart.step] at hs
    split at hs
    · obtain rfl := Option.some.inj hs
      exact h.stays rfl rfl rfl rfl rfl rfl h.handler
    · cases hs
  | irq =>
    simp only [Uart.step, irqStep] at hs
    split at hs
    · cases hs
    · split_ifs at hs
      all_goals
        obtain rfl := Option.some.inj hs
        exact h.stays rfl rfl rfl rfl rfl rfl h.handler
    · obtain rfl := Option.some.inj hs
      exact h.stays rfl rfl rfl rfl rfl rfl h.handler

end Uart

namespace Console

/-! ## The invariant -/

/-- The bytes that the tasks have queued, and are about to: those of their calls. -/
def InOrder (s : Console) : Prop :=
  ∀ task, (s.written.filter (·.1 = task)).map (·.2) ++ (s.calls task).getD [] =
    ((s.called.filter (·.1 = task)).map (·.2)).flatten

/-- A ring, behind what was taken off it, holds what was put into it, less what was overwritten. -/
structure Kept (ring : RingBuffer) (taken put : List UInt8) : Prop where
  mask : ring.mask = consoleRoom
  room : ring.items.length ≤ consoleRoom
  sublist : (taken ++ ring.items).Sublist put

structure Inv (s : Console) : Prop where
  uart : s.toUart.Inv
  ready : s.Ready
  xmit : ∀ task ier, s.xmit task = some ier → RxEnabled ier
  tx : Kept s.txRing s.dequeued (s.written.map (·.2))
  rx : Kept s.rxRing s.received s.queued
  order : s.InOrder
  armed : s.binded = true → s.txRing.items ≠ [] → s.dev.TxEmpty ∨ ∃ task, s.calls task ≠ none

section Kept

variable {ring : RingBuffer} {taken put : List UInt8}

/-- A byte is put into a ring: it overwrites the oldest one if the ring is full. -/
theorem Kept.queue (h : Kept ring taken put) (c : UInt8) : Kept (ring.queue c) taken (put ++ [c]) := by
  refine ⟨h.mask, ?_, ?_⟩
  · have hroom := h.room
    rw [RingBuffer.queue]
    simp only [List.length_append, List.length_singleton]
    split_ifs with hfull
    · rw [List.length_tail, hfull, h.mask]
      decide
    · rw [h.mask] at hfull
      omega
  · have hput : (ring.queue c).items = (if ring.items.length = ring.mask then ring.items.tail else ring.items) ++ [c] :=
      rfl
    rw [hput, ← List.append_assoc]
    refine List.Sublist.append (List.Sublist.trans ?_ h.sublist) (List.Sublist.refl [c])
    refine List.Sublist.append_left ?_ taken
    split_ifs
    · exact List.tail_sublist _
    · exact List.Sublist.refl _

/-- A byte is taken off a ring. -/
theorem Kept.dequeue (h : Kept ring taken put) :
    Kept { ring with items := ring.items.tail } (taken ++ ring.items.head?.toList) put := by
  have hitems : ring.items.head?.toList ++ ring.items.tail = ring.items := by
    cases ring.items with
    | nil => rfl
    | cons c rest => rfl
  refine ⟨h.mask, ?_, ?_⟩
  · have hroom := h.room
    rw [List.length_tail]
    omega
  · rw [List.append_assoc, hitems]
    exact h.sublist

end Kept

/-! ## Steps -/

variable {s s' : Console}

/-- The bytes of a task are in order after it has called. -/
theorem InOrder.call {task : TaskId} (h : s.InOrder) (hidle : s.calls task = none) (bytes : List UInt8) :
    InOrder { s with
      calls := Function.update s.calls task (some bytes)
      called := s.called ++ [(task, bytes)] } := by
  intro t
  have hbefore := h t
  by_cases ht : t = task
  · subst ht
    rw [hidle, Option.getD_none, List.append_nil] at hbefore
    simp [hbefore]
  · simp [Function.update_of_ne ht, Ne.symm ht, hbefore]

/-- It has queued a byte. -/
theorem InOrder.queue {task : TaskId} {c : UInt8} {rest : List UInt8} (h : s.InOrder)
    (hat : s.calls task = some (c :: rest)) (u : Uart) :
    InOrder { s with
      toUart := u
      calls := Function.update s.calls task (some rest)
      written := s.written ++ [(task, c)] } := by
  intro t
  have hbefore := h t
  by_cases ht : t = task
  · subst ht
    rw [hat, Option.getD_some] at hbefore
    simp [← hbefore]
  · simp [Function.update_of_ne ht, Ne.symm ht, hbefore]

/-- It has returned. -/
theorem InOrder.finish {task : TaskId} (h : s.InOrder) (hat : s.calls task = some []) (u : Uart) :
    InOrder { s with toUart := u, calls := Function.update s.calls task none } := by
  intro t
  have hbefore := h t
  by_cases ht : t = task
  · subst ht
    rw [hat, Option.getD_some] at hbefore
    simpa using hbefore
  · simpa [Function.update_of_ne ht] using hbefore

/-- A step of the handler or the device. -/
theorem Inv.hardware (h : s.Inv) {op : Uart.Op} (hop : IsHardware op) {u : Uart} (hs : s.toUart.step op = some u) :
    Inv { s with toUart := u } := by
  have hmoves := h.ready.hardware h.uart hop hs
  refine ⟨h.uart.step hs, hmoves.ready, fun task ier hier => ?_, ⟨hmoves.txMask.trans h.tx.mask, ?_, ?_⟩, ?_, h.order,
    fun hbinded hne => ?_⟩
  · rw [hmoves.xmit] at hier
    exact h.xmit task ier hier
  · exact hmoves.fewer.trans h.tx.room
  · rw [hmoves.out]
    exact h.tx.sublist
  · rcases hmoves.inp with ⟨hring, hqueued⟩ | ⟨data, hring, hqueued⟩
    · rw [hring, hqueued]
      exact h.rx
    · rw [hring, hqueued]
      exact h.rx.queue data
  · have hwaits : s.txRing.items ≠ [] := by
      have hpos := (List.length_pos_iff.mpr hne).trans_le hmoves.fewer
      exact List.length_pos_iff.mp hpos
    exact (h.armed hbinded hwaits).imp_left (hmoves.txEmpty hne)

/-- The statements of `uart_start_xmit`, and the return from a call. -/
theorem Inv.finish {task : TaskId} (h : s.Inv) (hat : s.calls task = some []) (hs : s.next task = some s') :
    s'.Inv := by
  rw [Console.next, hat] at hs
  dsimp only at hs
  by_cases hbinded : s.binded = true
  · rw [if_neg (not_not.mpr hbinded)] at hs
    cases hxmit : s.xmit task with
    | none =>
      rw [hxmit] at hs
      obtain ⟨u, hu, rfl⟩ := Option.map_eq_some_iff.mp hs
      have huart := h.uart.step hu
      rw [Uart.step] at hu
      split_ifs at hu
      obtain rfl := Option.some.inj hu
      refine ⟨huart, ⟨h.ready.ier, h.ready.handler⟩, fun t ier hier => ?_, h.tx, h.rx, h.order, h.armed⟩
      have hread : (s.dev.read false 1).1 = s.dev.ier := by
        change (if s.dev.HasDlab then (s.dev.dmsb, s.dev) else (s.dev.ier, s.dev)).1 = _
        rw [if_neg h.uart.not_hasDlab]
      by_cases ht : t = task
      · subst ht
        change Function.update s.xmit t (some (s.dev.read false 1).1) t = some ier at hier
        rw [Function.update_self, hread] at hier
        exact Option.some.inj hier ▸ h.ready.ier
      · change Function.update s.xmit task _ t = some ier at hier
        rw [Function.update_of_ne ht] at hier
        exact h.xmit t ier hier
    | some ier =>
      rw [hxmit] at hs
      obtain ⟨u, hu, rfl⟩ := Option.map_eq_some_iff.mp hs
      have huart := h.uart.step hu
      rw [Uart.step] at hu
      split_ifs at hu with hidle
      rw [hxmit] at hu
      obtain rfl := Option.some.inj hu
      have hwrite := h.uart.write_ier (ier ||| ierTxRdy)
      refine ⟨huart, ⟨?_, ?_⟩, fun t ier' hier => ?_, h.tx, h.rx, h.order.finish hat _, fun _ _ => .inl ?_⟩
      · change RxEnabled (s.dev.write (ier ||| ierTxRdy) 1).ier
        rw [hwrite]
        exact (h.xmit task ier hxmit).setTx
      · simp [hidle]
      · by_cases ht : t = task
        · subst ht
          change Function.update s.xmit t none t = some ier' at hier
          rw [Function.update_self] at hier
          cases hier
        · change Function.update s.xmit task none t = some ier' at hier
          rw [Function.update_of_ne ht] at hier
          exact h.xmit t ier' hier
      · change (s.dev.write (ier ||| ierTxRdy) 1).ier &&& 0x02 = 0x02
        rw [hwrite]
        exact txEmpty_setTx ier
  · rw [if_pos hbinded] at hs
    split_ifs at hs
    obtain rfl := Option.some.inj hs
    exact ⟨h.uart, h.ready, h.xmit, h.tx, h.rx, h.order.finish hat _, fun htrue => absurd htrue hbinded⟩

/-- A statement of a call. -/
theorem Inv.next {task : TaskId} (h : s.Inv) (hs : s.next task = some s') : s'.Inv := by
  cases hat : s.calls task with
  | none =>
    rw [Console.next, hat] at hs
    cases hs
  | some bytes =>
    cases bytes with
    | cons c rest =>
      rw [Console.next, hat] at hs
      obtain ⟨u, hu, rfl⟩ := Option.map_eq_some_iff.mp hs
      have huart := h.uart.step hu
      rw [Uart.step] at hu
      split_ifs at hu with hidle
      obtain rfl := Option.some.inj hu
      refine ⟨huart, ⟨h.ready.ier, ?_⟩, h.xmit, ?_, h.rx, h.order.queue hat _, fun _ _ => .inr ⟨task, ?_⟩⟩
      · simp [hidle]
      · change Kept (s.txRing.queue c) s.dequeued ((s.written ++ [(task, c)]).map (·.2))
        rw [List.map_append]
        exact h.tx.queue c
      · simp
    | nil => exact h.finish hat hs

/-- A call of `console_putchar` or `console_puts`. -/
theorem Inv.call {task : TaskId} {bytes : List UInt8} (h : s.Inv) (hs : s.call task bytes = some s') : s'.Inv := by
  rw [Console.call] at hs
  split_ifs at hs with hidle
  obtain rfl := Option.some.inj hs
  exact ⟨h.uart, h.ready, h.xmit, h.tx, h.rx, h.order.call hidle.2 bytes, fun _ _ => .inr ⟨task, by simp⟩⟩

/-- The end of `console_bind_uart`. -/
theorem Inv.bind {task : TaskId} (h : s.Inv) (hs : s.bind task = some s') : s'.Inv := by
  rw [Console.bind] at hs
  split_ifs at hs with hidle hwaits
  · obtain rfl := Option.some.inj hs
    refine ⟨h.uart, h.ready, h.xmit, h.tx, h.rx, fun t => ?_, fun _ _ => .inr ⟨task, by simp⟩⟩
    have hbefore := h.order t
    by_cases ht : t = task
    · subst ht
      rw [hidle.2] at hbefore
      simpa using hbefore
    · simpa [Function.update_of_ne ht] using hbefore
  · obtain rfl := Option.some.inj hs
    exact ⟨h.uart, h.ready, h.xmit, h.tx, h.rx, h.order, fun _ hne => absurd hne hwaits⟩

/-- **A step.** -/
theorem Inv.step {op : Op} (h : s.Inv) (hs : s.step op = some s') : s'.Inv := by
  cases op with
  | putchar task c => exact h.call hs
  | puts task text => exact h.call hs
  | next task => exact h.next hs
  | bind task => exact h.bind hs
  | getchar =>
    obtain ⟨u, hu, rfl⟩ := Option.map_eq_some_iff.mp hs
    have huart := h.uart.step hu
    rw [Uart.step] at hu
    split_ifs at hu
    obtain rfl := Option.some.inj hu
    exact ⟨huart, ⟨h.ready.ier, h.ready.handler⟩, h.xmit, h.tx, h.rx.dequeue, h.order, h.armed⟩
  | hardware op =>
    rw [Console.step] at hs
    split_ifs at hs with hop
    obtain ⟨u, hu, rfl⟩ := Option.map_eq_some_iff.mp hs
    exact h.hardware hop hu

theorem Initialized.inv {main : TaskId} (h : s.Initialized main) : s.Inv := by
  have hwritten : s.written.map (·.2) = s.txRing.items := by
    rw [h.written, List.map_map]
    exact List.map_id' _
  refine ⟨h.uart.inv, ⟨?_, ?_⟩, fun task ier hier => ?_, ⟨h.txRing.1, h.txRing.2, ?_⟩, ⟨h.rxRing.1, ?_, ?_⟩,
    fun task => ?_, fun hbinded => ?_⟩
  · obtain ⟨u, div, -, hdev⟩ := h.uart.dev
    rw [uartInitialize_eq] at hdev
    rw [hdev]
    exact (by decide : (0x05 : UInt8) &&& 0x05 = 0x05)
  · simp [h.uart.handler]
  · rw [h.xmit] at hier
    cases hier
  · rw [h.uart.dequeued, hwritten]
    exact List.Sublist.refl _
  · rw [h.rxRing.2]
    exact Nat.zero_le _
  · rw [h.rxRing.2, h.received]
    exact List.nil_sublist _
  · rw [h.calls, h.called, h.written]
    by_cases ht : main = task
    · simp [ht, List.filter_map, Function.comp_def]
    · simp [ht, List.filter_map, Function.comp_def]
  · rw [h.binded] at hbinded
    cases hbinded

/-! ## Delivery -/

/-- The terminal got, or will get, all bytes that were written. -/
def Delivered (s : Console) : Prop := s.stdout ++ s.dev.txBuf ++ s.txRing.items = s.written.map (·.2)

/-- The tasks are at most 511 bytes ahead of the handler. -/
def KeepsUp (s : Console) : Prop := s.written.length ≤ s.dequeued.length + consoleRoom

/-- The tasks got, or will get, all bytes that the device accepted. -/
def Received (s : Console) : Prop := s.received ++ s.rxRing.items ++ s.dev.rxBuf = s.accepted

/-- The handler is at most 511 bytes ahead of the tasks. -/
def KeepsUpInput (s : Console) : Prop := s.queued.length ≤ s.received.length + consoleRoom

instance : DecidablePred KeepsUp := fun _ => inferInstanceAs (Decidable (_ ≤ _))
instance : DecidablePred KeepsUpInput := fun _ => inferInstanceAs (Decidable (_ ≤ _))

theorem Inv.delivered_iff (h : s.Inv) :
    s.Delivered ↔ s.dequeued ++ s.txRing.items = s.written.map (·.2) := by
  rw [Delivered, h.uart.tx]

theorem Inv.received_iff (h : s.Inv) : s.Received ↔ s.received ++ s.rxRing.items = s.queued := by
  rw [Received, h.uart.rx]
  exact List.append_left_inj _

/-- A ring holds no more than it has room for. -/
theorem Kept.length_le {ring : RingBuffer} {taken put : List UInt8} (h : Kept ring taken put)
    (hall : taken ++ ring.items = put) : put.length ≤ taken.length + consoleRoom := by
  rw [← hall, List.length_append]
  exact Nat.add_le_add_left h.room _

theorem Inv.keepsUp (h : s.Inv) (hall : s.Delivered) : s.KeepsUp := by
  have hlen := h.tx.length_le (h.delivered_iff.mp hall)
  rwa [List.length_map] at hlen

theorem Inv.keepsUpInput (h : s.Inv) (hall : s.Received) : s.KeepsUpInput := h.rx.length_le (h.received_iff.mp hall)

/-- A ring with room for a byte overwrites none. -/
theorem Kept.all_queue {ring : RingBuffer} {taken put : List UInt8} (h : Kept ring taken put)
    (hall : taken ++ ring.items = put) {c : UInt8} (hroom : (put ++ [c]).length ≤ taken.length + consoleRoom) :
    taken ++ (ring.queue c).items = put ++ [c] := by
  have hfree : ring.items.length ≠ ring.mask := by
    rw [h.mask]
    rw [← hall] at hroom
    simp only [List.length_append, List.length_singleton] at hroom
    omega
  rw [RingBuffer.queue, if_neg hfree, ← List.append_assoc, hall]

/-- The histories of the input. -/
def input (s : Console) : RingBuffer × List UInt8 × List UInt8 := (s.rxRing, s.queued, s.received)

/-- The histories of the output. -/
def output (s : Console) : RingBuffer × List UInt8 × List (TaskId × UInt8) := (s.txRing, s.dequeued, s.written)

/-- A statement of a call queues a byte, or leaves the rings. -/
theorem next_histories {task : TaskId} (hs : s.next task = some s') :
    s'.input = s.input ∧
      (s'.output = s.output ∨ ∃ c, s'.output = (s.txRing.queue c, s.dequeued, s.written ++ [(task, c)])) := by
  rw [Console.next] at hs
  split at hs
  · cases hs
  · obtain ⟨u, hu, rfl⟩ := Option.map_eq_some_iff.mp hs
    rw [Uart.step] at hu
    split_ifs at hu
    obtain rfl := Option.some.inj hu
    exact ⟨rfl, .inr ⟨_, rfl⟩⟩
  · by_cases hbinded : s.binded = true
    · rw [if_neg (not_not.mpr hbinded)] at hs
      split at hs
      · obtain ⟨u, hu, rfl⟩ := Option.map_eq_some_iff.mp hs
        rw [Uart.step] at hu
        split_ifs at hu
        obtain rfl := Option.some.inj hu
        exact ⟨rfl, .inl rfl⟩
      · obtain ⟨u, hu, rfl⟩ := Option.map_eq_some_iff.mp hs
        rw [Uart.step] at hu
        split_ifs at hu
        obtain ⟨ier, -, rfl⟩ := Option.map_eq_some_iff.mp hu
        exact ⟨rfl, .inl rfl⟩
    · rw [if_pos hbinded] at hs
      split_ifs at hs
      obtain rfl := Option.some.inj hs
      exact ⟨rfl, .inl rfl⟩

theorem call_histories {task : TaskId} {bytes : List UInt8} (hs : s.call task bytes = some s') :
    s'.input = s.input ∧ s'.output = s.output := by
  rw [Console.call] at hs
  split_ifs at hs
  obtain rfl := Option.some.inj hs
  exact ⟨rfl, rfl⟩

theorem bind_histories {task : TaskId} (hs : s.bind task = some s') : s'.input = s.input ∧ s'.output = s.output := by
  rw [Console.bind] at hs
  split_ifs at hs
  all_goals
    obtain rfl := Option.some.inj hs
    exact ⟨rfl, rfl⟩

/-- The output after a step: a byte was queued into `tx_ring`, or those that it was behind are the same. -/
theorem Inv.output_step {op : Op} (h : s.Inv) (hs : s.step op = some s') :
    s'.written = s.written ∧ s'.dequeued ++ s'.txRing.items = s.dequeued ++ s.txRing.items ∨
      ∃ task c, s'.output = (s.txRing.queue c, s.dequeued, s.written ++ [(task, c)]) := by
  have hsame : s'.output = s.output →
      s'.written = s.written ∧ s'.dequeued ++ s'.txRing.items = s.dequeued ++ s.txRing.items := by
    intro hout
    simp only [output, Prod.mk.injEq] at hout
    exact ⟨hout.2.2, by rw [hout.1, hout.2.1]⟩
  cases op with
  | putchar task c => exact .inl (hsame (call_histories hs).2)
  | puts task text => exact .inl (hsame (call_histories hs).2)
  | next task => exact (next_histories hs).2.imp hsame fun ⟨c, hout⟩ => ⟨task, c, hout⟩
  | bind task => exact .inl (hsame (bind_histories hs).2)
  | getchar =>
    obtain ⟨u, hu, rfl⟩ := Option.map_eq_some_iff.mp hs
    rw [Uart.step] at hu
    split_ifs at hu
    obtain rfl := Option.some.inj hu
    exact .inl ⟨rfl, rfl⟩
  | hardware op =>
    rw [Console.step] at hs
    split_ifs at hs with hop
    obtain ⟨u, hu, rfl⟩ := Option.map_eq_some_iff.mp hs
    exact .inl ⟨rfl, (h.ready.hardware h.uart hop hu).out⟩

/-- The input after a step: a byte was queued into `rx_ring`, or those that it was behind are the same. -/
theorem Inv.input_step {op : Op} (h : s.Inv) (hs : s.step op = some s') :
    s'.queued = s.queued ∧ s'.received ++ s'.rxRing.items = s.received ++ s.rxRing.items ∨
      ∃ c, s'.input = (s.rxRing.queue c, s.queued ++ [c], s.received) := by
  have hsame : s'.input = s.input →
      s'.queued = s.queued ∧ s'.received ++ s'.rxRing.items = s.received ++ s.rxRing.items := by
    intro hinp
    simp only [input, Prod.mk.injEq] at hinp
    exact ⟨hinp.2.1, by rw [hinp.1, hinp.2.2]⟩
  cases op with
  | putchar task c => exact .inl (hsame (call_histories hs).1)
  | puts task text => exact .inl (hsame (call_histories hs).1)
  | next task => exact .inl (hsame (next_histories hs).1)
  | bind task => exact .inl (hsame (bind_histories hs).1)
  | getchar =>
    obtain ⟨u, hu, rfl⟩ := Option.map_eq_some_iff.mp hs
    rw [Uart.step] at hu
    split_ifs at hu
    obtain rfl := Option.some.inj hu
    refine .inl ⟨rfl, ?_⟩
    change s.received ++ s.rxRing.items.head?.toList ++ s.rxRing.items.tail = _
    cases s.rxRing.items with
    | nil => simp
    | cons c rest => simp
  | hardware op =>
    rw [Console.step] at hs
    split_ifs at hs with hop
    obtain ⟨u, hu, rfl⟩ := Option.map_eq_some_iff.mp hs
    rcases (h.ready.hardware h.uart hop hu).inp with ⟨hring, hqueued⟩ | ⟨data, hring, hqueued⟩
    · refine .inl ⟨hqueued, ?_⟩
      change s.received ++ u.rxRing.items = _
      rw [hring]
    · refine .inr ⟨data, ?_⟩
      change (u.rxRing, u.queued, s.received) = _
      rw [hring, hqueued]

theorem Inv.delivered_step {op : Op} (h : s.Inv) (hall : s.Delivered) (hkeeps : s'.KeepsUp)
    (hs : s.step op = some s') : s'.Delivered := by
  have hi' := h.step hs
  rw [hi'.delivered_iff]
  rw [h.delivered_iff] at hall
  rcases h.output_step hs with ⟨hwritten, hout⟩ | ⟨task, c, hout⟩
  · rw [hout, hwritten]
    exact hall
  · simp only [output, Prod.mk.injEq] at hout
    obtain ⟨hring, hdequeued, hwritten⟩ := hout
    rw [KeepsUp, hwritten, hdequeued, ← List.length_map (·.2), List.map_append] at hkeeps
    rw [hring, hdequeued, hwritten, List.map_append]
    exact h.tx.all_queue hall hkeeps

theorem Inv.received_step {op : Op} (h : s.Inv) (hall : s.Received) (hkeeps : s'.KeepsUpInput)
    (hs : s.step op = some s') : s'.Received := by
  have hi' := h.step hs
  rw [hi'.received_iff]
  rw [h.received_iff] at hall
  rcases h.input_step hs with ⟨hqueued, hinp⟩ | ⟨c, hinp⟩
  · rw [hinp, hqueued]
    exact hall
  · simp only [input, Prod.mk.injEq] at hinp
    obtain ⟨hring, hqueued, hreceived⟩ := hinp
    rw [KeepsUpInput, hqueued, hreceived] at hkeeps
    rw [hring, hreceived, hqueued]
    exact h.rx.all_queue hall hkeeps

/-- The device asks for an interrupt, whether its timeout has passed or not. -/
def Asks (u : P16550) (timeout : Bool) : Prop := u.interruptIdentificationRegister timeout ≠ iirNoInterrupt

/-- There is a reason for an interrupt: as many bytes as the trigger level, bytes and the timeout, or none to transmit,
with the interrupts of each enabled. -/
theorem asks_of_reason {u : P16550} {timeout : Bool} (h : u.RxDataAvailable ∧ u.rxTriggerLevel ≤ u.rxBuf.length ∨
    u.RxLineStatus ∧ 0 < u.rxBuf.length ∧ timeout = true ∨ u.TxEmpty ∧ u.txBuf.length = 0) : Asks u timeout := by
  rw [Asks, P16550.interruptIdentificationRegister]
  by_cases hfifo : u.FifoEnabled
  all_goals
    simp only [hfifo, if_true, if_false]
    split_ifs with hdata htimeout hoverrun htx
    · decide
    · decide
    · decide
    · decide
    · rcases h with h | h | h
      · exact absurd h hdata
      · exact absurd h htimeout
      · exact absurd h htx

/-- The device asks for an interrupt if bytes wait for one. -/
structure Armed (s : Console) : Prop where
  rxData : ∀ timeout, rxFifoTrig ≤ s.dev.rxBuf.length → Asks s.dev timeout
  rxTimeout : s.dev.rxBuf ≠ [] → Asks s.dev true
  tx : ∀ timeout, s.binded = true → (∀ task, s.calls task = none) → s.txRing.items ≠ [] → s.dev.txBuf = [] →
    Asks s.dev timeout

theorem Inv.isArmed (h : s.Inv) : s.Armed where
  rxData timeout hlen := asks_of_reason (.inl ⟨h.ready.ier.dataAvailable, h.uart.rxTriggerLevel ▸ hlen⟩)
  rxTimeout hne := asks_of_reason (.inr (.inl ⟨h.ready.ier.lineStatus, List.length_pos_iff.mpr hne, rfl⟩))
  tx timeout hbinded hidle hwaits hempty := by
    have htx : s.dev.TxEmpty := by
      rcases h.armed hbinded hwaits with htx | ⟨task, hcall⟩
      · exact htx
      · exact absurd (hidle task) hcall
    exact asks_of_reason (.inr (.inr ⟨htx, List.length_eq_zero_iff.mpr hempty⟩))

/-- What the terminal got, or will get, is what was written, less what was overwritten; and the bytes of each task are
written in the order of its calls. -/
structure Ordered (s : Console) : Prop where
  output : (s.stdout ++ s.dev.txBuf ++ s.txRing.items).Sublist (s.written.map (·.2))
  input : (s.received ++ s.rxRing.items ++ s.dev.rxBuf).Sublist s.accepted
  order : s.InOrder

theorem Inv.ordered (h : s.Inv) : s.Ordered where
  output := by
    rw [h.uart.tx]
    exact h.tx.sublist
  input := by
    rw [h.uart.rx]
    exact h.rx.sublist.append (List.Sublist.refl _)
  order := h.order

end Console

section Runs

open Console

variable {s₀ : Console} {main : TaskId}

theorem Console.Inv.always (h₀ : s₀.Initialized main) (ops : List Console.Op) :
    Always Console.step Console.Inv s₀ ops :=
  always_of_invariant (fun _ _ _ h hs => h.step hs) h₀.inv ops

/-- The terminal gets all bytes along the runs whose tasks are never too far ahead. -/
theorem Console.delivered_iff (h₀ : s₀.Initialized main) (ops : List Console.Op) :
    Always Console.step Delivered s₀ ops ↔ Always Console.step KeepsUp s₀ ops := by
  have hi := h₀.inv
  have hall : s₀.Delivered := by
    rw [hi.delivered_iff, h₀.uart.dequeued, h₀.written, List.map_map]
    exact (List.map_id' _).symm
  constructor
  · exact Always.of_next (fun _ _ _ hi _ hall hs => ⟨hi.step hs, (hi.step hs).keepsUp hall⟩) hi (hi.keepsUp hall)
  · exact Always.of_next (fun _ _ _ hi hall hkeeps hs => ⟨hi.step hs, hi.delivered_step hall hkeeps hs⟩) hi hall

/-- The tasks get all bytes of input along the runs in which they are never too far behind. -/
theorem Console.received_iff (h₀ : s₀.Initialized main) (ops : List Console.Op) :
    Always Console.step Received s₀ ops ↔ Always Console.step KeepsUpInput s₀ ops := by
  have hi := h₀.inv
  have hall : s₀.Received := by
    rw [hi.received_iff, h₀.received, h₀.rxRing.2, h₀.uart.queued]
    rfl
  constructor
  · exact Always.of_next (fun _ _ _ hi _ hall hs => ⟨hi.step hs, (hi.step hs).keepsUpInput hall⟩) hi
      (hi.keepsUpInput hall)
  · exact Always.of_next (fun _ _ _ hi hall hkeeps hs => ⟨hi.step hs, hi.received_step hall hkeeps hs⟩) hi hall

/-- **No byte is lost**, in every state of a run, exactly if the tasks are at most 511 bytes ahead of the handler with
their output, and at most 511 bytes behind it with their input, in every state of it. -/
theorem console_complete_iff (s₀ : Console) (main : TaskId) (h₀ : s₀.Initialized main) (ops : List Console.Op) :
    (Always Console.step Delivered s₀ ops ↔ Always Console.step KeepsUp s₀ ops) ∧
      (Always Console.step Received s₀ ops ↔ Always Console.step KeepsUpInput s₀ ops) :=
  ⟨Console.delivered_iff h₀ ops, Console.received_iff h₀ ops⟩

/-- A task prints a letter before the console is bound, which is then sent, while another letter comes in. -/
theorem console_complete_iff_boot :
    Always Console.step Delivered Console.boot bootOps ∧ Always Console.step Received Console.boot bootOps := by
  obtain ⟨hdelivered, hreceived⟩ := console_complete_iff _ 0 initialized_boot bootOps
  exact ⟨hdelivered.mpr (by decide), hreceived.mpr (by decide)⟩

/-- **The console makes up no bytes, and keeps their order**: along every run, the terminal gets bytes that were
written, in the order in which they were, and those of each task in the order of its calls; and the tasks get bytes of
input in the order in which the device accepted them. -/
theorem console_keeps_order (s₀ : Console) (main : TaskId) (h₀ : s₀.Initialized main) (ops : List Console.Op) :
    Always Console.step Ordered s₀ ops :=
  (Console.Inv.always h₀ ops).imp fun _ h => h.ordered

theorem console_keeps_order_boot : Always Console.step Ordered Console.boot bootOps :=
  console_keeps_order _ 0 initialized_boot _

/-- **No byte waits for an interrupt that is not asked for**: along every run, if the device holds as many bytes of
input as its trigger level, or any of them at the timeout, or if bytes wait in `tx_ring` of a console that is bound, no
task is inside of a call, and the transmitter is empty, the device identifies an interrupt. -/
theorem console_armed (s₀ : Console) (main : TaskId) (h₀ : s₀.Initialized main) (ops : List Console.Op) :
    Always Console.step Armed s₀ ops :=
  (Console.Inv.always h₀ ops).imp fun _ h => h.isArmed

theorem console_armed_boot : Always Console.step Armed Console.boot bootOps :=
  console_armed _ 0 initialized_boot _

end Runs

end I80k.Vboard

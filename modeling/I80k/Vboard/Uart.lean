import I80k.Kernel.Pc16550
import I80k.Lib.Run

/-!
# The driver and the emulated UART

The kernel's driver runs on the virtual processor, and the device in goroutines of its own: `loop` moves bytes
between the queues and the terminal, and samples the interrupt identification register after each of them;
`irqManager` receives the samples and sets the level of the interrupt line. All of them are interleaved: a
step is an access to a register by the guest, with what the guest computes for it, or a statement of one of
the goroutines.

The histories of the bytes that go through the queues are kept beside them.

## Main definitions

* `LoopAt`, `IrqAt`: the positions in `loop` and in `irqManager`
* `Uart`: the driver, the device and the goroutines
* `Uart.handlerStep`: the next access of `uart_handler`
* `Uart.step`: one step
* `Uart.Initialized`: after `uart_initialize`
-/

namespace I80k.Vboard

open Kernel

/-- The position in `loop`. -/
inductive LoopAt
  | select
  /-- A byte was moved, or the ticker has ticked: the register is sampled next. -/
  | sample
  /-- `u.irqChannel <- intr`. -/
  | send (intr : UInt8)
  deriving DecidableEq

/-- The position in `irqManager`. -/
inductive IrqAt
  | select
  /-- `intr` is compared with the last one. -/
  | compare (intr : UInt8)
  /-- `u.setIRQLine(1)`, after `u.setIRQLine(0)`. -/
  | raise (intr : UInt8)
  deriving DecidableEq

/-- The driver, the device and its goroutines. -/
structure Uart where
  dev : P16550
  rxRing : RingBuffer
  txRing : RingBuffer
  /-- The position in `uart_handler`, while it runs. -/
  handler : Option HandlerAt
  /-- The value of `ier` in the tasks that are inside of `uart_start_xmit`. -/
  xmit : TaskId → Option UInt8
  loop : LoopAt
  irq : IrqAt
  lastIrq : UInt8
  irqLine : Bool
  /-- The bytes taken off `tx_buf`. -/
  stdout : List UInt8
  /-- The bytes dequeued from `tx_ring`. -/
  dequeued : List UInt8
  /-- The bytes written while `tx_buf` was full. -/
  dropped : List UInt8
  /-- The bytes accepted into `rx_buf`. -/
  accepted : List UInt8
  /-- The bytes queued into `rx_ring`. -/
  queued : List UInt8
  /-- The number of reads of an empty `rx_buf`. -/
  emptyReads : ℕ

namespace Uart

variable (s : Uart)

/-- `ring_buffer_queue(rx_ring, inb(PC16550_BUFR(uart)))`. -/
def receiveByte : Uart :=
  let (data, dev) := s.dev.read false 0
  { s with
    dev
    rxRing := s.rxRing.queue data
    queued := s.queued ++ [data]
    emptyReads := if s.dev.rxBuf = [] then s.emptyReads + 1 else s.emptyReads }

/-- `outb(PC16550_BUFR(uart), data)`, of a byte dequeued from `tx_ring`. -/
def transmitByte (data : UInt8) (rest : List UInt8) : Uart :=
  { s with
    dev := s.dev.write data 0
    txRing := { s.txRing with items := rest }
    dequeued := s.dequeued ++ [data]
    dropped := if s.dev.txBuf.length < queueSz then s.dropped else s.dropped ++ [data] }

/-- The next access of `uart_handler`, and where it goes from there. -/
def handlerStep (timeout : Bool) : HandlerAt → Uart
  | .isr =>
    { s with handler := HandlerAt.dispatch (s.dev.read timeout 2).1 s.txRing }
  | .rxData i =>
    { s.receiveByte with handler := some (if i + 1 < rxFifoTrig then .rxData (i + 1) else .isr) }
  | .timeoutStatus =>
    let (status, dev) := s.dev.read timeout 5
    { s with dev, handler := some (if status &&& 1 ≠ 0 then .timeoutData else .isr) }
  | .timeoutData => { s.receiveByte with handler := some .timeoutStatus }
  | .lineStatus => { s with dev := (s.dev.read timeout 5).2, handler := some .isr }
  | .txEmpty i =>
    match s.txRing.items with
    | [] => { s with handler := some .isr }
    | data :: rest => { s.transmitByte data rest with
        handler := some (if i + 1 < txFifoSz ∧ rest ≠ [] then .txEmpty (i + 1) else .isr) }
  | .disableRead => { s with handler := some (.disableWrite (s.dev.read timeout 1).1) }
  | .disableWrite ier => { s with dev := s.dev.write (ier &&& ~~~ierTxRdy) 1, handler := some .isr }
  | .modemStatus => { s with dev := (s.dev.read timeout 6).2, handler := some .isr }

/-- The next statement of `irqManager`. -/
def irqStep : IrqAt → Option Uart
  | .select => none
  | .compare intr =>
    if intr = s.lastIrq then some { s with irq := .select, lastIrq := intr }
    else if intr ≠ iirNoInterrupt then some { s with irqLine := false, irq := .raise intr }
    else some { s with irqLine := false, irq := .select, lastIrq := intr }
  | .raise intr => some { s with irqLine := true, irq := .select, lastIrq := intr }

/-- The steps. The handler is entered, and makes its next access; a task of the guest queues a byte of output,
takes one of input, or is inside of `uart_start_xmit`; `loop` takes a byte off `tx_buf`, has one of input, is
woken up by its ticker, or samples the register; `irqManager` receives the sample, and goes on. -/
inductive Op
  | enter
  | handler (timeout : Bool)
  | putchar (c : UInt8)
  | getchar
  | xmitRead (task : TaskId)
  | xmitWrite (task : TaskId)
  | drain
  | input (char : UInt8)
  | tick
  | sample (timeout : Bool)
  | receive
  | irq

/-- One step. The tasks of the guest do not run while the handler does. -/
def step : Op → Option Uart
  | .enter => if s.handler = none then some { s with handler := some .isr } else none
  | .handler timeout => s.handler.map (s.handlerStep timeout)
  | .putchar c => if s.handler = none then some { s with txRing := s.txRing.queue c } else none
  | .getchar =>
    if s.handler = none then some { s with rxRing := { s.rxRing with items := s.rxRing.items.tail } }
    else none
  | .xmitRead task =>
    if s.handler = none ∧ s.xmit task = none then
      some { s with xmit := Function.update s.xmit task (some (s.dev.read false 1).1) }
    else none
  | .xmitWrite task =>
    if s.handler = none then
      (s.xmit task).map fun ier => { s with
        dev := s.dev.write (ier ||| ierTxRdy) 1
        xmit := Function.update s.xmit task none }
    else none
  | .drain =>
    match s.loop, s.dev.txBuf with
    | .select, char :: rest => some { s with
        dev := { s.dev with txBuf := rest }
        stdout := s.stdout ++ [char]
        loop := .sample }
    | _, _ => none
  | .input char =>
    if s.loop = .select then
      some { s with
        dev := s.dev.input char
        accepted := if s.dev.rxBuf.length < queueSz then s.accepted ++ [char] else s.accepted
        loop := .sample }
    else none
  | .tick => if s.loop = .select then some { s with loop := .sample } else none
  | .sample timeout =>
    if s.loop = .sample then
      some { s with loop := .send (s.dev.interruptIdentificationRegister timeout) }
    else none
  | .receive =>
    match s.loop, s.irq with
    | .send intr, .select => some { s with loop := .select, irq := .compare intr }
    | _, _ => none
  | .irq => s.irqStep s.irq

/-- After `uart_initialize`: nothing was transmitted yet, and the bytes accepted so far are in the queue. What
the goroutines have done, and what is in the ring buffers, is not known. -/
structure Initialized : Prop where
  dev : ∃ u div, u.txBuf = [] ∧ s.dev = uartInitialize u div
  handler : s.handler = none
  stdout : s.stdout = []
  dequeued : s.dequeued = []
  dropped : s.dropped = []
  accepted : s.accepted = s.dev.rxBuf
  queued : s.queued = []
  emptyReads : s.emptyReads = 0

/-- The UART after `uart_initialize` by the console: the rings have 512 bytes, and the divisor is that for
38400 baud. -/
def boot : Uart where
  dev := uartInitialize P16550.new 8
  rxRing := ⟨511, []⟩
  txRing := ⟨511, []⟩
  handler := none
  xmit _ := none
  loop := .select
  irq := .select
  lastIrq := iirNoInterrupt
  irqLine := false
  stdout := []
  dequeued := []
  dropped := []
  accepted := []
  queued := []
  emptyReads := 0

theorem initialized_boot : boot.Initialized where
  dev := ⟨P16550.new, 8, rfl, rfl⟩
  handler := rfl
  stdout := rfl
  dequeued := rfl
  dropped := rfl
  accepted := by
    unfold boot
    rw [uartInitialize_eq]
    rfl
  queued := rfl
  emptyReads := rfl

end Uart

end I80k.Vboard

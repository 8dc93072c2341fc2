import I80k.Kernel.Scheduler
import I80k.Vboard.P16550

/-!
# The UART driver

The functions of `kernel/drivers/pc16550.c`. The driver moves bytes between the ring buffers of the console
and the UART, in the handler of its interrupt. It is a sequence of accesses to the registers of the device:
the position in the handler is the access that comes next, with what was computed for it.

A ring buffer is the list of its bytes, the oldest first.

## Main definitions

* `RingBuffer`: a ring buffer, with `ringBufferQueue` and `ringBufferDequeue`
* `HandlerAt`: the position in `uart_handler`
* `HandlerAt.dispatch`: the branch that the handler takes
* `uartInitialize`: the initialization of the device
-/

namespace I80k.Kernel

open Vboard

/-- `ring_buffer_t`. One byte of the buffer is not used: it is full with `mask` bytes. -/
structure RingBuffer where
  mask : ℕ
  items : List UInt8

namespace RingBuffer

/-- `ring_buffer_queue`: if the buffer is full, the oldest byte is overwritten. -/
def queue (rb : RingBuffer) (data : UInt8) : RingBuffer :=
  { rb with items := (if rb.items.length = rb.mask then rb.items.tail else rb.items) ++ [data] }

end RingBuffer

/-- `PC16550_TX_FIFO_SZ`. -/
def txFifoSz : ℕ := 16

/-- `PC16550_RX_FIFO_TRIG`. -/
def rxFifoTrig : ℕ := 14

/-- `ISR_INT_ID`. -/
def isrIntId (reg : UInt8) : UInt8 := (reg >>> 1) &&& 0x7

/-- The access to a register that comes next in `uart_handler`. -/
inductive HandlerAt
  /-- `isr = inb(PC16550_ISR(uart))`. -/
  | isr
  /-- Turn `i` of the loop of `RX_DATA`. -/
  | rxData (i : ℕ)
  /-- `status = inb(PC16550_LSR(uart))` of `RX_FIFO_TIMEOUT`. -/
  | timeoutStatus
  /-- The byte that the status said is there. -/
  | timeoutData
  /-- `(void)inb(PC16550_LSR(uart))` of `RX_LINE_STATUS`. -/
  | lineStatus
  /-- Turn `i` of the loop of `TX_EMPTY`. -/
  | txEmpty (i : ℕ)
  /-- `pc16550_disable_tx_int`: the read of the register, and the write. -/
  | disableRead
  | disableWrite (ier : UInt8)
  /-- `(void)inb(PC16550_MSR(uart))` of `MODEM_STATUS`. -/
  | modemStatus
  deriving DecidableEq

/-- Where the handler goes with the value of the register `isr`: it returns, or takes a branch. -/
def HandlerAt.dispatch (isr : UInt8) (txRing : RingBuffer) : Option HandlerAt :=
  if isr &&& 1 ≠ 0 then none
  else
    match isrIntId isr with
    | 0x2 => some (.rxData 0)
    | 0x6 => some .timeoutStatus
    | 0x3 => some .lineStatus
    | 0x1 => some (if txRing.items ≠ [] then .txEmpty 0 else .disableRead)
    | 0x0 => some .modemStatus
    | _ => some .isr

/-- `IER_TX_RDY`. -/
def ierTxRdy : UInt8 := 0x02

/-- `pc16550_set_baud_rate`, with the divisor for the rate. -/
def setBaudRate (u : P16550) (div : ℕ) : P16550 :=
  let lcr := (u.read false 3).1 ||| 0x80
  let u := u.write lcr 3
  let u := u.write (UInt8.ofNat div) 0
  let u := u.write (UInt8.ofNat (div / 2 ^ 8)) 1
  u.write (lcr &&& 0x7F) 3

/-- `uart_initialize`, up to the hook of the handler. -/
def uartInitialize (u : P16550) (div : ℕ) : P16550 :=
  -- `FCR_RX_TX_ENABLE | FCR_RX_CLEAR | FCR_TX_CLEAR | FCR_TRIGGER_14B`.
  let u := u.write 0xC7 2
  -- `LCR_8BITS`.
  let u := u.write 0x03 3
  -- `IER_RX_RDY | IER_RX_LINE_STATUS`.
  let u := u.write 0x05 1
  let u := setBaudRate u div
  -- `MCR_RTS`.
  u.write 0x02 4

/-- What the initialization leaves: the registers, and the queues as they were. -/
theorem uartInitialize_eq (u : P16550) (div : ℕ) :
    uartInitialize u div = { u with
      fcr := 0xC7, lcr := 0x03, ier := 0x05, mcr := 0x02
      dlsb := UInt8.ofNat div, dmsb := UInt8.ofNat (div / 2 ^ 8) } := by
  have hclear : ¬ (0x03 : UInt8) &&& 0x80 = 0x80 := by decide
  have hset : ((0x03 : UInt8) ||| 0x80) &&& 0x80 = 0x80 := by decide
  have hback : ((0x03 : UInt8) ||| 0x80) &&& 0x7F = 0x03 := by decide
  simp [uartInitialize, setBaudRate, P16550.write, P16550.read, P16550.HasDlab, hclear, hset, hback]

end I80k.Kernel

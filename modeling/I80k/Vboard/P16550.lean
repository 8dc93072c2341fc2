import Mathlib

/-!
# The emulated UART

The registers of `vboard/devices/p16550.go`. A guest reads and writes them through ports; each access holds
the mutex of the device, and is one step. The channels `rx_buf` and `tx_buf` are the queues of the received
bytes and of those to transmit, of 16 bytes each.

Whether the last byte was received longer ago than the duration of a trigger is up to the clock of the host:
it is an argument of the functions that look at it.

## Main definitions

* `P16550`: the device
* `P16550.interruptIdentificationRegister`, `P16550.lineStatusRegister`: the registers that are computed
* `P16550.read`, `P16550.write`: an access to a register
-/

namespace I80k.Vboard

/-- `QUEUE_SZ`, the capacity of the queues. -/
def queueSz : ℕ := 16

/-- The device. -/
structure P16550 where
  rxOverrun : Bool
  rxBuf : List UInt8
  txBuf : List UInt8
  ier : UInt8
  fcr : UInt8
  lcr : UInt8
  mcr : UInt8
  msr : UInt8
  dlsb : UInt8
  dmsb : UInt8

/-! ## The bits of the registers -/

/-- `IIR_NO_INTERRUPT`. -/
def iirNoInterrupt : UInt8 := 0x01

/-- `IIR_TX_EMPTY`. -/
def iirTxEmpty : UInt8 := 0x02

/-- `IIR_RX_DATA`. -/
def iirRxData : UInt8 := 0x04

/-- `IIR_LINE_STATUS`. -/
def iirLineStatus : UInt8 := 0x06

/-- `IIR_FIFO_TIMEOUT`. -/
def iirFifoTimeout : UInt8 := 0x0C

/-- `IIR_FIFO_ENABLED`. -/
def iirFifoEnabled : UInt8 := 0xC0

namespace P16550

variable (u : P16550)

/-- `lcr.hasDLAB()`. -/
def HasDlab : Prop := u.lcr &&& 0x80 = 0x80

/-- `fcr.fifoEnabled()`. -/
def FifoEnabled : Prop := u.fcr &&& 1 = 1

/-- `fcr.rxTriggerLevel()`. -/
def rxTriggerLevel : ℕ :=
  match (u.fcr &&& 0xC0) >>> 6 with
  | 0 => 1
  | 1 => 4
  | 2 => 8
  | 3 => 14
  | _ => 1

/-- `ier.rxDataAvailable()`. -/
def RxDataAvailable : Prop := u.ier &&& 1 = 1

/-- `ier.txEmpty()`. -/
def TxEmpty : Prop := u.ier &&& 0x02 = 0x02

/-- `ier.rxLineStatus()`. -/
def RxLineStatus : Prop := u.ier &&& 0x04 = 0x04

instance : Decidable u.HasDlab := inferInstanceAs (Decidable (_ = _))
instance : Decidable u.FifoEnabled := inferInstanceAs (Decidable (_ = _))
instance : Decidable u.RxDataAvailable := inferInstanceAs (Decidable (_ = _))
instance : Decidable u.TxEmpty := inferInstanceAs (Decidable (_ = _))
instance : Decidable u.RxLineStatus := inferInstanceAs (Decidable (_ = _))

/-! ## The registers -/

/-- The line status register. A read may clear the overrun. -/
def lineStatusRegister : UInt8 × P16550 :=
  -- `LSR_DATA_READY`, `LSR_TX_EMPTY | LSR_TX_REG_EMPTY`, `LSR_OVERRUN_ERROR`.
  if 0 < u.rxBuf.length then (1, u)
  else if u.txBuf.length = 0 then (0x40 ||| 0x20, u)
  else if u.rxOverrun then (0x02, { u with rxOverrun := false })
  else (0, u)

/-- The interrupt identification register, and whether the time since the last byte is a timeout. -/
def interruptIdentificationRegister (timeout : Bool) : UInt8 :=
  let r : UInt8 := if u.FifoEnabled then iirFifoEnabled else 0
  if u.RxDataAvailable ∧ u.rxTriggerLevel ≤ u.rxBuf.length then r ||| iirRxData
  else if u.RxLineStatus ∧ 0 < u.rxBuf.length ∧ timeout then r ||| iirFifoTimeout
  else if u.rxOverrun then r ||| iirLineStatus
  else if u.TxEmpty ∧ u.txBuf.length = 0 then r ||| iirTxEmpty
  else iirNoInterrupt

/-- Reads a register. -/
def read (timeout : Bool) : ℕ → UInt8 × P16550
  | 0 =>
    if u.HasDlab then (u.dlsb, u)
    else
      match u.rxBuf with
      | [] => (0, u)
      | char :: rest => (char, { u with rxBuf := rest })
  | 1 => if u.HasDlab then (u.dmsb, u) else (u.ier, u)
  | 2 => (u.interruptIdentificationRegister timeout, u)
  | 3 => (u.lcr, u)
  | 4 => (u.mcr, u)
  | 5 => u.lineStatusRegister
  | 6 => (u.msr, u)
  | _ => (0, u)

/-- Writes a register. -/
def write (data : UInt8) : ℕ → P16550
  | 0 =>
    if u.HasDlab then { u with dlsb := data }
    else if u.txBuf.length < queueSz then { u with txBuf := u.txBuf ++ [data] }
    else u
  | 1 => if u.HasDlab then { u with dmsb := data } else { u with ier := data }
  | 2 => { u with fcr := data }
  | 3 => { u with lcr := data }
  | 4 => { u with mcr := data }
  | 6 => { u with msr := data }
  | _ => u

/-- A byte comes in: it is queued, or lost. -/
def input (char : UInt8) : P16550 :=
  if u.rxBuf.length < queueSz then { u with rxBuf := u.rxBuf ++ [char] } else { u with rxOverrun := true }

/-- After `NewP16550`. -/
def new : P16550 := ⟨false, [], [], 0, 0, 0, 0, 0, 0, 0⟩

/-! ## Reads and writes of the queues -/

variable {u}

/-- What the interrupt identification register says, with the queues enabled. -/
inductive Identified (u : P16550) (timeout : Bool) : UInt8 → Prop
  | rxData (h : u.rxTriggerLevel ≤ u.rxBuf.length) : Identified u timeout 0xC4
  | fifoTimeout : Identified u timeout 0xCC
  | lineStatus : Identified u timeout 0xC6
  | txEmpty (h : u.txBuf = []) : Identified u timeout 0xC2
  | noInterrupt : Identified u timeout 0x01

theorem identified (hfifo : u.FifoEnabled) (timeout : Bool) :
    Identified u timeout (u.interruptIdentificationRegister timeout) := by
  unfold interruptIdentificationRegister
  simp only [if_pos hfifo]
  split_ifs with hrx htimeout hoverrun htx
  · exact .rxData hrx.2
  · exact .fifoTimeout
  · exact .lineStatus
  · exact .txEmpty (List.length_eq_zero_iff.mp htx.2)
  · exact .noInterrupt

/-- The line status says whether there is a byte to read, and a read of it leaves the queues. -/
theorem lineStatusRegister_spec :
    (u.lineStatusRegister.1 &&& 1 ≠ 0 ↔ u.rxBuf ≠ []) ∧ u.lineStatusRegister.2.rxBuf = u.rxBuf ∧
      u.lineStatusRegister.2.txBuf = u.txBuf ∧ u.lineStatusRegister.2.fcr = u.fcr ∧
      u.lineStatusRegister.2.lcr = u.lcr := by
  unfold lineStatusRegister
  split_ifs with hrx htx hoverrun
  · refine ⟨iff_of_true ?_ (List.length_pos_iff.mp hrx), rfl, rfl, rfl, rfl⟩
    dsimp only
    decide
  all_goals
    have hempty : u.rxBuf = [] := by simpa using hrx
    refine ⟨iff_of_false ?_ (by simp [hempty]), rfl, rfl, rfl, rfl⟩
    dsimp only
    decide

end P16550

end I80k.Vboard

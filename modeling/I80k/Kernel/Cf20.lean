import I80k.Kernel.Error
import I80k.Kernel.Scheduler
import I80k.Kernel.Word

/-!
# The CompactFlash driver

The functions of `cf20.c` and `cf20_cmds.c` that read and write sectors. A task that asks for sectors
sleeps on the list `requests`, with the request as its `wait_state`: the list of the sleeping tasks is
the queue of the requests. The request at the head of the queue is the one that the card works on. The
card raises an interrupt for each sector, and `cf20_handler` moves the sector, a byte at a time.

What the driver does is seen on the ports of the card and on the tasks: the state keeps a trace of it. A
submission, up to the call of `schedule`, is one step, and so is an interrupt.

## Main definitions

* `BioRequest`, `Command`, `Card`: a request, the registers of a command, and the card
* `Cf20`: the queue, the card and the trace
* `Cf20.cf20Handler`: the interrupt handler
* `Cf20.cf20ReadBlock`, `Cf20.cf20WriteBlock`: the submission of a request
* `Cf20.step`: a submission, or an interrupt that the card raises
-/

namespace I80k.Kernel

/-- `bio_state_t`. -/
inductive BioState
  | readCmd
  | readSector
  | writeCmd
  | writeSector
  | done
  | error
  deriving DecidableEq, Repr

/-- `BIO_SEND`. -/
def BioState.Send (s : BioState) : Prop := s = .readCmd ∨ s = .writeCmd

/-- `BIO_RW_SECTOR`. -/
def BioState.RwSector (s : BioState) : Prop := s = .readSector ∨ s = .writeSector

instance (s : BioState) : Decidable s.Send := inferInstanceAs (Decidable (_ ∨ _))
instance (s : BioState) : Decidable s.RwSector := inferInstanceAs (Decidable (_ ∨ _))

/-- `struct bio_request`. -/
structure BioRequest where
  state : BioState
  block : ℕ
  count : ℕ
  buf : ℕ

/-- Whether sectors are read or written. -/
inductive Direction
  | read
  | write
  deriving DecidableEq, Repr

/-- The state of a request whose command is still to be sent. -/
def Direction.cmd : Direction → BioState
  | .read => .readCmd
  | .write => .writeCmd

/-- The state of a request whose sectors are moved. -/
def Direction.sector : Direction → BioState
  | .read => .readSector
  | .write => .writeSector

/-! ## The card -/

/-- `CF20_SECTOR_SIZE`. -/
def sectorSz : ℕ := 512

/-- The bytes that a command writes to the registers. -/
structure Command where
  sectorCount : UInt8
  lbaLow : UInt8
  lbaMid : UInt8
  lbaHigh : UInt8
  cardHead : UInt8
  cmd : UInt8
  deriving DecidableEq

/-- The registers of a command for `count` sectors from `block` on. The constants are `CHR_CARD0`,
`CHR_LBA` and `CHR_HEAD_MASK`. -/
def sectorsCommand (cmd : UInt8) (block count : ℕ) : Command where
  -- 0 is a special value for 256.
  sectorCount := if count < 256 then UInt8.ofNat count else 0
  lbaLow := UInt8.ofNat block
  lbaMid := UInt8.ofNat (block / 2 ^ 8)
  lbaHigh := UInt8.ofNat (block / 2 ^ 16)
  cardHead := UInt8.ofNat (0xA0 ||| 0x40 ||| (block / 2 ^ 24 &&& 0xF))
  cmd

/-- `cf20_send_read_sectors`, with `CMD_READ_SECTORS`. -/
def cf20SendReadSectors (block count : ℕ) : Command := sectorsCommand 0x20 block count

/-- `cf20_send_write_sectors`, with `CMD_WRITE_SECTORS`. -/
def cf20SendWriteSectors (block count : ℕ) : Command := sectorsCommand 0x30 block count

/-- The command for a direction. -/
def Direction.send : Direction → ℕ → ℕ → Command
  | .read => cf20SendReadSectors
  | .write => cf20SendWriteSectors

/-- The number of sectors that a command asks for. -/
def Command.sectors (c : Command) : ℕ := if c.sectorCount = 0 then 256 else c.sectorCount.toNat

/-- The first sector that a command asks for, a number of 28 bits. -/
def Command.lba (c : Command) : ℕ :=
  c.lbaLow.toNat + 2 ^ 8 * c.lbaMid.toNat + 2 ^ 16 * c.lbaHigh.toNat + 2 ^ 24 * (c.cardHead.toNat &&& 0xF)

/-- The card: the interrupts left to raise for the last command, the next sector, and the next byte at
the data port. -/
structure Card where
  left : ℕ
  sector : ℕ
  byte : ℕ

/-- The card starts over with the command last sent to it. -/
def Card.receive (card : Card) (c : Command) : Card := ⟨c.sectors, c.lba, card.byte⟩

/-- The card has the next sector at the data port. -/
def Card.interrupt (card : Card) : Card := ⟨card.left - 1, card.sector + 1, sectorSz * card.sector⟩

/-! ## The driver -/

/-- What is seen of the driver. -/
inductive Cf20Event
  /-- A command is sent to the card. -/
  | command (c : Command)
  /-- The card raises an interrupt. -/
  | interrupt
  /-- A byte of the card is moved to or from an address, through the data port. -/
  | data (dir : Direction) (byte addr : ℕ)
  /-- `scheduler_wake_up(task)`. -/
  | wakeUp (task : TaskId)
  deriving DecidableEq

/-- A request that was accepted. -/
structure Request where
  task : TaskId
  dir : Direction
  block : ℕ
  count : ℕ
  buf : ℕ
  deriving DecidableEq

/-- The data of the driver and the card, with the requests accepted so far and the trace. -/
structure Cf20 where
  /-- The tasks on `requests`, with their `wait_state`. -/
  requests : List (TaskId × BioRequest)
  card : Card
  submitted : List Request
  trace : List Cf20Event

namespace Cf20

/-- After `cf20_probe`. -/
def initial : Cf20 := ⟨[], ⟨0, 0, 0⟩, [], []⟩

def log (s : Cf20) (e : Cf20Event) : Cf20 := { s with trace := s.trace ++ [e] }

/-- Sends a command to the card. -/
def send (s : Cf20) (c : Command) : Cf20 := { s with card := s.card.receive c }.log (.command c)

/-- One turn of the loops of `cf20_read_sector` and `cf20_write_sector`. -/
def dataByte (s : Cf20) (dir : Direction) (buf : ℕ) : Cf20 :=
  { s with card := { s.card with byte := s.card.byte + 1 } }.log (.data dir s.card.byte buf)

/-- The loops, for `n` bytes. -/
def sectorLoop (dir : Direction) : ℕ → ℕ → Cf20 → Cf20
  | 0, _, s => s
  | n + 1, buf, s => sectorLoop dir n (buf + 1) (s.dataByte dir buf)

def cf20ReadSector (s : Cf20) (buf : ℕ) : Cf20 := sectorLoop .read sectorSz buf s

def cf20WriteSector (s : Cf20) (buf : ℕ) : Cf20 := sectorLoop .write sectorSz buf s

/-- The sector that is ready, to or from the buffer of the request. -/
def moveSector (s : Cf20) (ioReq : BioRequest) : Cf20 × BioRequest :=
  let s :=
    if ioReq.state = .readSector then s.cf20ReadSector ioReq.buf
    else if ioReq.state = .writeSector then s.cf20WriteSector ioReq.buf
    else s
  let count := toUint (ioReq.count + (2 ^ 16 - 1))
  (s, { state := if count = 0 then .done else ioReq.state
        block := toUint32 (ioReq.block + 1)
        count
        buf := ioReq.buf + sectorSz })

/-- The command of a request that has none yet. -/
def sendCommand (s : Cf20) (ioReq : BioRequest) : Cf20 :=
  if ioReq.state.Send then
    if ioReq.state = .readCmd then s.send (cf20SendReadSectors ioReq.block ioReq.count)
    else if ioReq.state = .writeCmd then s.send (cf20SendWriteSectors ioReq.block ioReq.count)
    else s
  else s

/-- The first part of the handler: the sector that is ready, if the command was already sent. -/
def handleSector (s : Cf20) (ioReq : BioRequest) : Cf20 × BioRequest :=
  if ioReq.state.RwSector then s.moveSector ioReq else (s, ioReq)

/-- The second part: a request that is finished makes room for the next one, and a command is sent if
there is one to send. -/
def handleDone (s : Cf20) (task : TaskId) (ioReq : BioRequest) (rest : List (TaskId × BioRequest)) : Cf20 :=
  if ioReq.state = .done then
    let s := { s with requests := rest }.log (.wakeUp task)
    match rest with
    | [] => s
    | (_, next) :: _ => s.sendCommand next
  else { s with requests := (task, ioReq) :: rest }.sendCommand ioReq

/-- The interrupt handler. -/
def cf20Handler (s : Cf20) : Cf20 :=
  match s.requests with
  -- A spurious interrupt.
  | [] => s
  | (task, ioReq) :: rest =>
    let r := s.handleSector ioReq
    r.1.handleDone task r.2 rest

/-- `cf20_read_block` and `cf20_write_block` by a task, up to the call of `schedule`: the result if the
function returns at once, and the state. There is memory for the request. -/
def cf20Block (dir : Direction) (s : Cf20) (task : TaskId) (block count buf : ℕ) : Option Int16 × Cf20 :=
  if count = 0 ∨ 256 < count ∨ buf = 0 then (some errInval, s)
  else
    let (s, state) :=
      if s.requests = [] then (s.send (dir.send block count), dir.sector) else (s, dir.cmd)
    -- `scheduler_sleep_on` puts the task at the end of the list.
    (none, { s with
      requests := s.requests ++ [(task, ⟨state, block, count, buf⟩)]
      submitted := s.submitted ++ [⟨task, dir, block, count, buf⟩] })

def cf20ReadBlock : Cf20 → TaskId → ℕ → ℕ → ℕ → Option Int16 × Cf20 := cf20Block .read

def cf20WriteBlock : Cf20 → TaskId → ℕ → ℕ → ℕ → Option Int16 × Cf20 := cf20Block .write

/-- What can happen. -/
inductive Op
  | readBlock (task : TaskId) (block count buf : ℕ)
  | writeBlock (task : TaskId) (block count buf : ℕ)
  | interrupt

/-- A submission, by a task that does not sleep, or an interrupt, of a card that has one to raise. -/
def step (s : Cf20) : Op → Option Cf20
  | .readBlock task block count buf =>
    if task ∈ s.requests.map Prod.fst then none else some (s.cf20ReadBlock task block count buf).2
  | .writeBlock task block count buf =>
    if task ∈ s.requests.map Prod.fst then none else some (s.cf20WriteBlock task block count buf).2
  | .interrupt =>
    if s.card.left = 0 then none
    else some ({ s with card := s.card.interrupt }.log .interrupt).cf20Handler

end Cf20

end I80k.Kernel

import I80k.Lib.Crc
import I80k.Lib.Run

/-!
# The XMODEM server

`xmodem_server.c` receives a file in packets of 128 or 1024 bytes. It is driven from outside: each byte of the line
is given to `xmodem_server_rx_byte`, and `xmodem_server_process` is called from time to time with the time in
milliseconds, to take a packet that is complete, and to notice that the line is silent.

The bytes that the server sends, those that it was given, and the packets that were taken from it are kept beside
it. An access outside of `packet_data` has no result.

## Main definitions

* `State`, `XmodemServer`: the state machine, and its variables
* `xmodemServerCrc`: the check of a packet
* `XmodemServer.rxByte`, `XmodemServer.process`: the functions
* `Session`: a server with its histories; `Session.step`: a call of one of the functions

## Main results

* `crcOf_eq_feed`: the check is the one over the bits of the packet
* `XmodemServer.process_cases`: what a call with the time does to the packet
-/

namespace I80k.Xmodem

abbrev Byte := BitVec 8

/-! ## The check -/

/-- A turn of the loop of `xmodem_server_crc`. -/
def crcTurn (crc : BitVec 16) : BitVec 16 := if crc &&& 0x8000 ≠ 0 then crc <<< 1 ^^^ 0x1021 else crc <<< 1

/-- `xmodem_server_crc`. -/
def xmodemServerCrc (crc : BitVec 16) (byte : Byte) : BitVec 16 := crcTurn^[8] (crc ^^^ byte.setWidth 16 <<< 8)

/-- The loop over the bytes of a packet. -/
def crcOf (data : List Byte) : BitVec 16 := data.foldl xmodemServerCrc 0

/-- The polynomial. -/
def crcPoly : BitVec 16 := 0x1021

theorem crcTurn_eq_shift : crcTurn = Crc.shift crcPoly := by
  funext crc
  have hmsb : crc &&& 0x8000 ≠ 0 ↔ crc.msb = true := by
    rw [show (0x8000 : BitVec 16) = BitVec.twoPow 16 15 from rfl, BitVec.and_twoPow, BitVec.msb_eq_getLsbD_last]
    cases hbit : crc.getLsbD 15
    · simp
    · simp
  simp only [crcTurn, Crc.shift, hmsb, crcPoly]

/-- The bits of bytes. -/
def bitsOf (bytes : List Byte) : List Bool := bytes.flatMap Crc.bitsOf

theorem xmodemServerCrc_eq_feed (crc : BitVec 16) (byte : Byte) :
    xmodemServerCrc crc byte = Crc.feed crcPoly crc (Crc.bitsOf byte) := by
  rw [Crc.feed_eq_shift crcPoly crc (by simp), Crc.top_bitsOf (by norm_num), Crc.length_bitsOf, xmodemServerCrc,
    crcTurn_eq_shift]

theorem foldl_xmodemServerCrc (crc : BitVec 16) (data : List Byte) :
    data.foldl xmodemServerCrc crc = Crc.feed crcPoly crc (bitsOf data) := by
  induction data generalizing crc with
  | nil => rfl
  | cons byte data ih =>
    have hbits : bitsOf (byte :: data) = Crc.bitsOf byte ++ bitsOf data := List.flatMap_cons
    rw [List.foldl_cons, ih, hbits, Crc.feed_append, xmodemServerCrc_eq_feed]

/-- **The check of a packet** is the one over its bits. -/
theorem crcOf_eq_feed (data : List Byte) : crcOf data = Crc.feed crcPoly 0 (bitsOf data) :=
  foldl_xmodemServerCrc 0 data

/-! ## The state machine -/

/-- `xmodem_server_state`. -/
inductive State
  | start
  | soh
  | blockNum
  | blockNeg
  | data
  | crc0
  | crc1
  | processPacket
  | successful
  | failure
  deriving DecidableEq

/-- `XMODEM_SOH`. -/
def soh : Byte := 0x01

/-- `XMODEM_STX`. -/
def stx : Byte := 0x02

/-- `XMODEM_EOT`. -/
def eot : Byte := 0x04

/-- `XMODEM_ACK`. -/
def ack : Byte := 0x06

/-- `XMODEM_NACK`. -/
def nack : Byte := 0x15

/-- `XMODEM_CAN`. -/
def can : Byte := 0x18

/-- `'C'`. -/
def charC : Byte := 0x43

/-- `XMODEM_MAX_PACKET_SIZE`. -/
def maxPacketSize : ℕ := 1024

/-- `XMODEM_PACKET_TIMEOUT`. -/
def packetTimeout : BitVec 64 := 1000

/-- `XMODEM_MAX_ERRORS`. -/
def maxErrors : BitVec 32 := 10

/-- `struct xmodem_server`, with the bytes that `tx_byte` was called with. -/
structure XmodemServer where
  state : State
  packetData : List Byte
  packetPos : BitVec 16
  crc : BitVec 16
  packetSize : BitVec 16
  repeating : Bool
  lastEventTime : BitVec 64
  blockNum : BitVec 32
  errorCount : BitVec 32
  sent : List Byte

namespace XmodemServer

variable (xdm : XmodemServer)

/-- `tx_byte`. -/
def txByte (byte : Byte) : XmodemServer := { xdm with sent := xdm.sent ++ [byte] }

/-- `xmodem_server_init`, with a `tx_byte`. -/
def init : XmodemServer :=
  txByte
    { state := .start
      packetData := List.replicate maxPacketSize 0
      packetPos := 0
      crc := 0
      packetSize := 0
      repeating := false
      lastEventTime := 0
      blockNum := 0
      errorCount := 0
      sent := [] } charC

/-- The states that wait for a packet to begin. -/
def rxStart (byte : Byte) : XmodemServer :=
  if byte = soh then { xdm with state := .blockNum, packetSize := 128 }
  else if byte = stx then { xdm with state := .blockNum, packetSize := 1024 }
  else if byte = eot then txByte { xdm with state := .successful } ack
  else xdm

/-- A byte that is not the one that the header should have. -/
def rxRestart (byte : Byte) : XmodemServer :=
  if byte = soh ∨ byte = stx then { xdm with state := .blockNum } else { xdm with state := .soh }

/-- The number of the packet that comes next, in a byte. -/
def nextNum : Byte := (xdm.blockNum + 1).setWidth 8

/-- The number of the packet before. -/
def lastNum : Byte := xdm.blockNum.setWidth 8

def rxBlockNum (byte : Byte) : XmodemServer :=
  if byte = xdm.nextNum then { xdm with state := .blockNeg, repeating := false }
  else if byte = xdm.lastNum then { xdm with state := .blockNeg, repeating := true }
  else xdm.rxRestart byte

def rxBlockNeg (byte : Byte) : XmodemServer :=
  let negBlock := if xdm.repeating then ~~~xdm.lastNum else ~~~xdm.nextNum
  if byte = negBlock then { xdm with packetPos := 0, state := .data } else xdm.rxRestart byte

def rxData (byte : Byte) : Option XmodemServer :=
  if xdm.packetPos.toNat < maxPacketSize then
    let xdm := { xdm with
      packetData := xdm.packetData.set xdm.packetPos.toNat byte
      packetPos := xdm.packetPos + 1 }
    some (if xdm.packetSize ≤ xdm.packetPos then { xdm with state := .crc0 } else xdm)
  else none

def rxCrc0 (byte : Byte) : XmodemServer := { xdm with crc := byte.setWidth 16 <<< 8, state := .crc1 }

def rxCrc1 (byte : Byte) : Option XmodemServer :=
  if xdm.packetSize.toNat ≤ maxPacketSize then
    let xdm := { xdm with crc := xdm.crc ||| byte.setWidth 16 }
    some
      (if crcOf (xdm.packetData.take xdm.packetSize.toNat) ≠ xdm.crc then
        txByte { xdm with errorCount := xdm.errorCount + 1, state := .soh } nack
      else if xdm.repeating then { xdm with state := .soh }
      else { xdm with state := .processPacket })
  else none

/-- `xmodem_server_rx_byte`. -/
def rxByte (byte : Byte) : Option XmodemServer :=
  match xdm.state with
  | .start | .soh => some (xdm.rxStart byte)
  | .blockNum => some (xdm.rxBlockNum byte)
  | .blockNeg => some (xdm.rxBlockNeg byte)
  | .data => xdm.rxData byte
  | .crc0 => some (xdm.rxCrc0 byte)
  | .crc1 => xdm.rxCrc1 byte
  | .processPacket | .successful | .failure => some xdm

/-- `xmodem_server_is_done`. -/
def IsDone : Prop := xdm.state = .successful ∨ xdm.state = .failure

instance : Decidable xdm.IsDone := inferInstanceAs (Decidable (_ ∨ _))

/-- 0 is the time that means no time. -/
def nonzero (msTime : BitVec 64) : BitVec 64 := if msTime = 0 then 1 else msTime

/-- The timer is initialised. -/
def initTimer (msTime : BitVec 64) : XmodemServer :=
  if xdm.lastEventTime = 0 then { xdm with lastEventTime := msTime } else xdm

/-- The sender is asked again to begin. -/
def askAgain (msTime : BitVec 64) : XmodemServer :=
  if xdm.state = .start ∧ 500 < msTime - xdm.lastEventTime then txByte { xdm with lastEventTime := msTime } charC
  else xdm

/-- The line has been silent for too long. -/
def checkTimeout (msTime : BitVec 64) : XmodemServer :=
  if packetTimeout < msTime - xdm.lastEventTime then
    txByte { xdm with errorCount := xdm.errorCount + 1, state := .soh, lastEventTime := msTime } nack
  else xdm

/-- There have been too many errors. -/
def checkErrors (msTime : BitVec 64) : XmodemServer :=
  if maxErrors ≤ xdm.errorCount then txByte { xdm with state := .failure, lastEventTime := msTime } can else xdm

/-- The checks of `xmodem_server_process`. -/
def check (msTime : BitVec 64) : XmodemServer :=
  (((xdm.initTimer msTime).askAgain msTime).checkTimeout msTime).checkErrors msTime

/-- A packet is taken: its bytes, and its number. -/
def takePacket (msTime : BitVec 64) : (List Byte × BitVec 32) × XmodemServer :=
  ((xdm.packetData.take xdm.packetSize.toNat, xdm.blockNum),
    txByte { xdm with lastEventTime := msTime, blockNum := xdm.blockNum + 1, state := .soh } ack)

/-- `xmodem_server_process`: the packet that it returns, if there is one. -/
def process (msTime : BitVec 64) : Option (List Byte × BitVec 32) × XmodemServer :=
  if xdm.IsDone then (none, xdm)
  else
    let msTime := nonzero msTime
    let xdm := xdm.check msTime
    if xdm.state = .processPacket then
      let (packet, xdm) := xdm.takePacket msTime
      (some packet, xdm)
    else (none, xdm)

/-! ### What a call with the time does -/

/-- The packet is the same, and if the state is not, the packet has been given up. -/
structure SamePacket (xdm xdm' : XmodemServer) : Prop where
  packetData : xdm'.packetData = xdm.packetData
  packetPos : xdm'.packetPos = xdm.packetPos
  crc : xdm'.crc = xdm.crc
  packetSize : xdm'.packetSize = xdm.packetSize
  repeating : xdm'.repeating = xdm.repeating
  blockNum : xdm'.blockNum = xdm.blockNum
  state : xdm'.state = xdm.state ∨ xdm'.state = .soh ∨ xdm'.state = .failure

namespace SamePacket

variable {xdm} {xdm' xdm'' : XmodemServer}

theorem refl (xdm : XmodemServer) : SamePacket xdm xdm := ⟨rfl, rfl, rfl, rfl, rfl, rfl, .inl rfl⟩

theorem trans (h : SamePacket xdm xdm') (h' : SamePacket xdm' xdm'') : SamePacket xdm xdm'' where
  packetData := h'.packetData.trans h.packetData
  packetPos := h'.packetPos.trans h.packetPos
  crc := h'.crc.trans h.crc
  packetSize := h'.packetSize.trans h.packetSize
  repeating := h'.repeating.trans h.repeating
  blockNum := h'.blockNum.trans h.blockNum
  state := by
    rcases h'.state with heq | hgiven
    · rw [heq]
      exact h.state
    · exact .inr hgiven

end SamePacket

theorem samePacket_check (msTime : BitVec 64) : SamePacket xdm (xdm.check msTime) := by
  have htimer : SamePacket xdm (xdm.initTimer msTime) := by
    unfold initTimer
    split_ifs
    · exact ⟨rfl, rfl, rfl, rfl, rfl, rfl, .inl rfl⟩
    · exact .refl xdm
  have hask : ∀ s : XmodemServer, SamePacket s (s.askAgain msTime) := by
    intro s
    unfold askAgain
    split_ifs
    · exact ⟨rfl, rfl, rfl, rfl, rfl, rfl, .inl rfl⟩
    · exact .refl s
  have htimeout : ∀ s : XmodemServer, SamePacket s (s.checkTimeout msTime) := by
    intro s
    unfold checkTimeout
    split_ifs
    · exact ⟨rfl, rfl, rfl, rfl, rfl, rfl, .inr (.inl rfl)⟩
    · exact .refl s
  have herrors : ∀ s : XmodemServer, SamePacket s (s.checkErrors msTime) := by
    intro s
    unfold checkErrors
    split_ifs
    · exact ⟨rfl, rfl, rfl, rfl, rfl, rfl, .inr (.inr rfl)⟩
    · exact .refl s
  exact ((htimer.trans (hask _)).trans (htimeout _)).trans (herrors _)

/-- **What a call with the time does**: the packet is taken, or it stays as it is, or is given up. -/
theorem process_cases (msTime : BitVec 64) :
    (∃ xdm', xdm.process msTime = (none, xdm') ∧ SamePacket xdm xdm') ∨
      xdm.state = .processPacket ∧ ∃ xdm', SamePacket xdm xdm' ∧ xdm'.state = .processPacket ∧
        xdm.process msTime = (some (xdm'.takePacket (nonzero msTime)).1, (xdm'.takePacket (nonzero msTime)).2) := by
  rw [process]
  by_cases hdone : xdm.IsDone
  · rw [if_pos hdone]
    exact .inl ⟨xdm, rfl, .refl xdm⟩
  rw [if_neg hdone]
  dsimp only
  split_ifs with hready
  · have hsame := samePacket_check xdm (nonzero msTime)
    have hstate : xdm.state = .processPacket := by
      rcases hsame.state with heq | heq | heq
      · exact heq.symm.trans hready
      · exact absurd (heq.symm.trans hready) (by decide)
      · exact absurd (heq.symm.trans hready) (by decide)
    exact .inr ⟨hstate, _, hsame, hready, rfl⟩
  · exact .inl ⟨_, rfl, samePacket_check xdm _⟩

end XmodemServer

/-! ## Sessions -/

/-- A call. -/
inductive Op
  | rxByte (byte : Byte)
  | process (msTime : BitVec 64)

/-- The bytes of a sequence of calls. -/
def bytesOf (ops : List Op) : List Byte := ops.filterMap fun
  | .rxByte byte => some byte
  | .process _ => none

/-- A server, with the bytes that it was given, and the packets that were taken from it. -/
structure Session where
  server : XmodemServer
  received : List Byte
  taken : List (List Byte × BitVec 32)

namespace Session

def initial : Session := ⟨.init, [], []⟩

def step (s : Session) : Op → Option Session
  | .rxByte byte => (s.server.rxByte byte).map fun server => { s with server, received := s.received ++ [byte] }
  | .process msTime =>
    let (packet, server) := s.server.process msTime
    some { s with server, taken := s.taken ++ packet.toList }

end Session

end I80k.Xmodem

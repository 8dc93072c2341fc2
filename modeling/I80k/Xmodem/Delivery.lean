import I80k.Xmodem.Server

/-!
# What an XMODEM server delivers

Whatever comes in on the line, and whenever the server is asked for a packet: the packets that are taken from it are
numbered from zero on, and each of them was received, as a whole and with the check that it should have, behind a byte
that begins a packet, its number and the complement of that. They were received in this order, and no byte is part of
two of them.

A packet can be given up at any time, since the line can be silent for too long; and then another one, or the same
one again, is received from its beginning.

## Main definitions

* `frame`: a packet on the line
* `Carries`: bytes that contain packets, one after the other
* `Session.Delivers`: the packets that were taken are in the bytes that were received
* `Session.Inv`: what holds along every run

## Main results

* `Session.Inv.rxByte`, `Session.Inv.process`: the steps keep it
* `xmodem_delivers_in_order`: every run has a result, and delivers what was received
-/

namespace I80k.Xmodem

open StepSystem

/-! ## Packets on the line -/

/-- The bytes of a check. -/
def checkBytes (crc : BitVec 16) : List Byte := [(crc >>> 8).setWidth 8, crc.setWidth 8]

/-- A byte that begins a packet. -/
def Begins (byte : Byte) : Prop := byte = soh ∨ byte = stx

instance (byte : Byte) : Decidable (Begins byte) := inferInstanceAs (Decidable (_ ∨ _))

/-- A packet on the line, with the byte that begins it. -/
def frame (first num : Byte) (data : List Byte) : List Byte :=
  first :: num :: ~~~num :: data ++ checkBytes (crcOf data)

/-- The sizes that a packet can have. -/
def PacketSize (n : ℕ) : Prop := n = 128 ∨ n = 1024

instance (n : ℕ) : Decidable (PacketSize n) := inferInstanceAs (Decidable (_ ∨ _))

theorem PacketSize.le {n : ℕ} (h : PacketSize n) : n ≤ maxPacketSize := by
  rcases h with rfl | rfl
  · decide
  · decide

/-- The bytes contain the packets, numbered from zero on, and other bytes between them. -/
inductive Carries : List Byte → List (List Byte × BitVec 32) → Prop
  | none : Carries [] []
  | packet {bytes data : List Byte} {first : Byte} {taken : List (List Byte × BitVec 32)} (h : Carries bytes taken)
      (gap : List Byte) (hfirst : Begins first) (hsize : PacketSize data.length) :
      Carries (bytes ++ gap ++ frame first (BitVec.ofNat 8 (taken.length + 1)) data)
        (taken ++ [(data, BitVec.ofNat 32 taken.length)])

namespace Session

/-- The packets that were taken are in the bytes that were received. -/
def Delivers (s : Session) : Prop := ∃ bytes rest, s.received = bytes ++ rest ∧ Carries bytes s.taken

end Session

/-! ## The packet that is being received -/

namespace XmodemServer

/-- The bytes of the packet so far, if it is a new one. -/
def begun (xdm : XmodemServer) (first : Byte) (data : List Byte) : List Byte :=
  first :: xdm.nextNum :: ~~~xdm.nextNum :: data

/-- The bytes that came last are those of the packet that is being received. -/
def Tail (xdm : XmodemServer) (first : Byte) (bytes : List Byte) : Prop :=
  match xdm.state with
  | .blockNum => bytes = [first]
  | .blockNeg => xdm.repeating = false → bytes = [first, xdm.nextNum]
  | .data => xdm.packetPos < xdm.packetSize ∧
      (xdm.repeating = false → bytes = xdm.begun first (xdm.packetData.take xdm.packetPos.toNat))
  | .crc0 => xdm.repeating = false → bytes = xdm.begun first (xdm.packetData.take xdm.packetSize.toNat)
  | .crc1 => xdm.repeating = false → ∃ hi : Byte, xdm.crc = hi.setWidth 16 <<< 8 ∧
      bytes = xdm.begun first (xdm.packetData.take xdm.packetSize.toNat) ++ [hi]
  | .processPacket => ∃ ignored, bytes = frame first xdm.nextNum (xdm.packetData.take xdm.packetSize.toNat) ++ ignored
  | _ => True

/-- The states in which the size of the packet is known. -/
def Sized (xdm : XmodemServer) : Prop :=
  match xdm.state with
  | .start | .soh | .successful | .failure => True
  | _ => PacketSize xdm.packetSize.toNat

end XmodemServer

namespace Session

/-- What holds along every run. -/
structure Inv (s : Session) : Prop where
  blockNum : s.server.blockNum = BitVec.ofNat 32 s.taken.length
  length : s.server.packetData.length = maxPacketSize
  sized : s.server.Sized
  tail : ∃ bytes gap first tail, s.received = bytes ++ gap ++ tail ∧ Carries bytes s.taken ∧ Begins first ∧
    s.server.Tail first tail

variable {s : Session}

theorem Inv.delivers (h : s.Inv) : s.Delivers := by
  obtain ⟨bytes, gap, first, tail, hreceived, hcarries, -⟩ := h.tail
  exact ⟨bytes, gap ++ tail, by rw [hreceived, List.append_assoc], hcarries⟩

theorem inv_initial : initial.Inv where
  blockNum := rfl
  length := List.length_replicate
  sized := trivial
  tail := ⟨[], [], soh, [], rfl, .none, .inl rfl, trivial⟩

/-- The number of the next packet is one more than that of the packets so far. -/
theorem Inv.nextNum (h : s.Inv) : s.server.nextNum = BitVec.ofNat 8 (s.taken.length + 1) := by
  have hone : (1 : BitVec 32).toNat = 1 := rfl
  rw [XmodemServer.nextNum, h.blockNum]
  apply BitVec.eq_of_toNat_eq
  simp only [BitVec.toNat_setWidth, BitVec.toNat_add, BitVec.toNat_ofNat, hone]
  omega

/-- A byte that goes on with the packet. -/
theorem Inv.extend (h : s.Inv) {server : XmodemServer} {byte : Byte} (hnum : server.blockNum = s.server.blockNum)
    (hlength : server.packetData.length = s.server.packetData.length) (hsized : server.Sized)
    (htail : ∀ first tail, s.server.Tail first tail → server.Tail first (tail ++ [byte])) :
    Inv { s with server, received := s.received ++ [byte] } := by
  obtain ⟨bytes, gap, first, tail, hreceived, hcarries, hfirst, hlast⟩ := h.tail
  refine ⟨hnum.trans h.blockNum, hlength.trans h.length, hsized, bytes, gap, first, tail ++ [byte], ?_, hcarries,
    hfirst, htail first tail hlast⟩
  dsimp only
  rw [hreceived, List.append_assoc]

/-- A byte that is the first one of a packet. -/
theorem Inv.begin (h : s.Inv) {server : XmodemServer} {byte : Byte} (hnum : server.blockNum = s.server.blockNum)
    (hlength : server.packetData.length = s.server.packetData.length) (hsized : server.Sized) (hbyte : Begins byte)
    (htail : server.Tail byte [byte]) : Inv { s with server, received := s.received ++ [byte] } := by
  obtain ⟨bytes, gap, first, tail, hreceived, hcarries, -⟩ := h.tail
  refine ⟨hnum.trans h.blockNum, hlength.trans h.length, hsized, bytes, gap ++ tail, byte, [byte], ?_, hcarries, hbyte,
    htail⟩
  dsimp only
  rw [hreceived, List.append_assoc bytes]

/-- A byte behind which there is no part of a new packet. -/
theorem Inv.restart (h : s.Inv) {server : XmodemServer} {byte : Byte} (hnum : server.blockNum = s.server.blockNum)
    (hlength : server.packetData.length = s.server.packetData.length) (hsized : server.Sized)
    (htail : server.Tail soh []) : Inv { s with server, received := s.received ++ [byte] } := by
  obtain ⟨bytes, gap, first, tail, hreceived, hcarries, -⟩ := h.tail
  refine ⟨hnum.trans h.blockNum, hlength.trans h.length, hsized, bytes, gap ++ tail ++ [byte], soh, [], ?_, hcarries,
    .inl rfl, htail⟩
  dsimp only
  rw [hreceived, List.append_nil, List.append_assoc bytes, List.append_assoc bytes]

/-! ## The steps -/

theorem Inv.rxStart (h : s.Inv) (hstate : s.server.state = .start ∨ s.server.state = .soh) (byte : Byte) :
    Inv { s with server := s.server.rxStart byte, received := s.received ++ [byte] } := by
  have hsame : s.server.Sized ∧ s.server.Tail soh [] := by
    rcases hstate with hstate | hstate
    · simp [XmodemServer.Sized, XmodemServer.Tail, hstate]
    · simp [XmodemServer.Sized, XmodemServer.Tail, hstate]
  unfold XmodemServer.rxStart
  split_ifs with hsoh hstx
  · exact h.begin rfl rfl (.inl rfl) (.inl hsoh) rfl
  · exact h.begin rfl rfl (.inr rfl) (.inr hstx) rfl
  · exact h.restart rfl rfl trivial trivial
  · exact h.restart rfl rfl hsame.1 hsame.2

theorem Inv.rxRestart (h : s.Inv) (hsize : PacketSize s.server.packetSize.toNat) (byte : Byte) :
    Inv { s with server := s.server.rxRestart byte, received := s.received ++ [byte] } := by
  unfold XmodemServer.rxRestart
  split_ifs with hbyte
  · exact h.begin rfl rfl hsize hbyte rfl
  · exact h.restart rfl rfl trivial trivial

theorem Inv.rxBlockNum (h : s.Inv) (hstate : s.server.state = .blockNum) (byte : Byte) :
    Inv { s with server := s.server.rxBlockNum byte, received := s.received ++ [byte] } := by
  have hsize : PacketSize s.server.packetSize.toNat := by simpa [XmodemServer.Sized, hstate] using h.sized
  unfold XmodemServer.rxBlockNum
  split_ifs with hnext
  · refine h.extend rfl rfl hsize fun first tail htail _ => ?_
    rw [XmodemServer.Tail, hstate] at htail
    rw [htail, hnext]
    rfl
  · refine h.restart rfl rfl hsize fun hnew => ?_
    cases hnew
  · exact h.rxRestart hsize byte

theorem Inv.rxBlockNeg (h : s.Inv) (hstate : s.server.state = .blockNeg) (byte : Byte) :
    Inv { s with server := s.server.rxBlockNeg byte, received := s.received ++ [byte] } := by
  have hsize : PacketSize s.server.packetSize.toNat := by simpa [XmodemServer.Sized, hstate] using h.sized
  have hpos : (0 : BitVec 16) < s.server.packetSize := by
    rcases hsize with heq | heq
    · bv_omega
    · bv_omega
  unfold XmodemServer.rxBlockNeg
  dsimp only
  split_ifs with hrepeating hneg hneg
  · -- the packet before, again
    refine h.extend rfl rfl hsize fun first tail _ => ⟨hpos, fun hnew => ?_⟩
    rw [hrepeating] at hnew
    cases hnew
  · exact h.rxRestart hsize byte
  · refine h.extend rfl rfl hsize fun first tail htail => ⟨hpos, fun hnew => ?_⟩
    rw [XmodemServer.Tail, hstate] at htail
    rw [htail hnew, hneg]
    rfl
  · exact h.rxRestart hsize byte

/-- A byte is stored behind the others. -/
theorem take_set {data : List Byte} {pos : ℕ} (hpos : pos < data.length) (byte : Byte) :
    (data.set pos byte).take (pos + 1) = data.take pos ++ [byte] := by
  rw [List.take_add_one, List.take_set_of_le le_rfl, List.getElem?_set_self hpos]
  rfl

theorem Inv.rxData (h : s.Inv) (hstate : s.server.state = .data) (byte : Byte) :
    ∃ server, s.server.rxData byte = some server ∧
      Inv { s with server, received := s.received ++ [byte] } := by
  have hsize : PacketSize s.server.packetSize.toNat := by simpa [XmodemServer.Sized, hstate] using h.sized
  have hle : s.server.packetSize.toNat ≤ 1024 := hsize.le
  obtain ⟨bytes, gap, first, tail, -, -, -, htail⟩ := h.tail
  rw [XmodemServer.Tail, hstate] at htail
  have hlt : s.server.packetPos.toNat < s.server.packetSize.toNat := htail.1
  have hpos : s.server.packetPos.toNat < maxPacketSize := hlt.trans_le hsize.le
  have hnext : (s.server.packetPos + 1).toNat = s.server.packetPos.toNat + 1 := by bv_omega
  have hstored : ∀ first tail, s.server.Tail first tail → s.server.repeating = false → tail ++ [byte] =
      s.server.begun first
        ((s.server.packetData.set s.server.packetPos.toNat byte).take (s.server.packetPos + 1).toNat) := by
    intro first tail htail hnew
    rw [XmodemServer.Tail, hstate] at htail
    rw [hnext, take_set (h.length ▸ hpos), htail.2 hnew]
    rfl
  rw [XmodemServer.rxData, if_pos hpos]
  refine ⟨_, rfl, ?_⟩
  dsimp only
  split_ifs with hfull
  · refine h.extend rfl List.length_set hsize fun first tail htail hnew => ?_
    have heq : s.server.packetSize.toNat = (s.server.packetPos + 1).toNat := by bv_omega
    dsimp only
    rw [heq]
    exact hstored first tail htail hnew
  · refine h.extend rfl List.length_set ?_ fun first tail htail => ?_
    · simpa [XmodemServer.Sized, hstate] using hsize
    · simp only [XmodemServer.Tail, hstate]
      exact ⟨BitVec.not_le.mp hfull, hstored first tail htail⟩

theorem Inv.rxCrc0 (h : s.Inv) (hstate : s.server.state = .crc0) (byte : Byte) :
    Inv { s with server := s.server.rxCrc0 byte, received := s.received ++ [byte] } := by
  have hsize : PacketSize s.server.packetSize.toNat := by simpa [XmodemServer.Sized, hstate] using h.sized
  refine h.extend rfl rfl hsize fun first tail htail hnew => ⟨byte, rfl, ?_⟩
  rw [XmodemServer.Tail, hstate] at htail
  rw [htail hnew]
  rfl

/-- The bytes of a check that was received. -/
theorem checkBytes_of_or (hi lo : Byte) : checkBytes (hi.setWidth 16 <<< 8 ||| lo.setWidth 16) = [hi, lo] := by
  have hhigh : ((hi.setWidth 16 <<< 8 ||| lo.setWidth 16 : BitVec 16) >>> 8).setWidth 8 = hi := by
    ext i hi'
    simp [show 8 + i < 16 by omega, BitVec.getLsbD_eq_getElem hi']
  have hlow : (hi.setWidth 16 <<< 8 ||| lo.setWidth 16 : BitVec 16).setWidth 8 = lo := by
    ext i
    simp
  rw [checkBytes, hhigh, hlow]

theorem Inv.rxCrc1 (h : s.Inv) (hstate : s.server.state = .crc1) (byte : Byte) :
    ∃ server, s.server.rxCrc1 byte = some server ∧
      Inv { s with server, received := s.received ++ [byte] } := by
  have hsize : PacketSize s.server.packetSize.toNat := by simpa [XmodemServer.Sized, hstate] using h.sized
  rw [XmodemServer.rxCrc1, if_pos hsize.le]
  refine ⟨_, rfl, ?_⟩
  dsimp only
  split_ifs with hcheck hrepeating
  · exact h.restart rfl rfl trivial trivial
  · exact h.restart rfl rfl trivial trivial
  · refine h.extend rfl rfl hsize fun first tail htail => ⟨[], ?_⟩
    rw [XmodemServer.Tail, hstate] at htail
    obtain ⟨hi, hcrc, htail⟩ := htail (Bool.eq_false_iff.mpr hrepeating)
    have hbytes : checkBytes (crcOf (s.server.packetData.take s.server.packetSize.toNat)) = [hi, byte] := by
      rw [not_not.mp hcheck, hcrc, checkBytes_of_or]
    rw [htail]
    simp [frame, XmodemServer.begun, XmodemServer.nextNum, hbytes]

/-- **A byte** is stored inside of the packet, and what it leads to is what was received. -/
theorem Inv.rxByte (h : s.Inv) (byte : Byte) :
    ∃ server, s.server.rxByte byte = some server ∧
      Inv { s with server, received := s.received ++ [byte] } := by
  unfold XmodemServer.rxByte
  cases hstate : s.server.state with
  | start => exact ⟨_, rfl, h.rxStart (.inl hstate) byte⟩
  | soh => exact ⟨_, rfl, h.rxStart (.inr hstate) byte⟩
  | blockNum => exact ⟨_, rfl, h.rxBlockNum hstate byte⟩
  | blockNeg => exact ⟨_, rfl, h.rxBlockNeg hstate byte⟩
  | data => exact h.rxData hstate byte
  | crc0 => exact ⟨_, rfl, h.rxCrc0 hstate byte⟩
  | crc1 => exact h.rxCrc1 hstate byte
  | processPacket =>
    refine ⟨_, rfl, h.extend rfl rfl h.sized fun first tail htail => ?_⟩
    rw [XmodemServer.Tail, hstate] at htail ⊢
    obtain ⟨ignored, htail⟩ := htail
    exact ⟨ignored ++ [byte], by rw [htail, List.append_assoc]⟩
  | successful => exact ⟨_, rfl, h.extend rfl rfl h.sized fun first tail _ => by simp [XmodemServer.Tail, hstate]⟩
  | failure => exact ⟨_, rfl, h.extend rfl rfl h.sized fun first tail _ => by simp [XmodemServer.Tail, hstate]⟩

/-- **A call with the time** takes the packet that was received, or leaves or gives up the one that is begun. -/
theorem Inv.process (h : s.Inv) (msTime : BitVec 64) :
    Inv { s with
      server := (s.server.process msTime).2
      taken := s.taken ++ (s.server.process msTime).1.toList } := by
  obtain ⟨bytes, gap, first, tail, hreceived, hcarries, hfirst, htail⟩ := h.tail
  rcases XmodemServer.process_cases s.server msTime with ⟨server, hcall, hsame⟩ |
    ⟨hstate, server, hsame, hready, hcall⟩
  · rw [hcall, Option.toList_none, List.append_nil]
    refine ⟨hsame.blockNum.trans h.blockNum, hsame.packetData ▸ h.length, ?_, bytes, gap, first, tail, hreceived,
      hcarries, hfirst, ?_⟩
    · rcases hsame.state with heq | heq | heq
      · have hsized := h.sized
        simp only [XmodemServer.Sized, heq, hsame.packetSize] at hsized ⊢
        exact hsized
      · simp [XmodemServer.Sized, heq]
      · simp [XmodemServer.Sized, heq]
    · rcases hsame.state with heq | heq | heq
      · simp only [XmodemServer.Tail, XmodemServer.begun, XmodemServer.nextNum, heq, hsame.packetData, hsame.packetPos,
          hsame.crc, hsame.packetSize, hsame.repeating, hsame.blockNum] at htail ⊢
        exact htail
      · simp [XmodemServer.Tail, heq]
      · simp [XmodemServer.Tail, heq]
  · have hsize : PacketSize s.server.packetSize.toNat := by simpa [XmodemServer.Sized, hstate] using h.sized
    rw [XmodemServer.Tail, hstate] at htail
    obtain ⟨ignored, htail⟩ := htail
    have hdata : (s.server.packetData.take s.server.packetSize.toNat).length = s.server.packetSize.toNat := by
      rw [List.length_take, h.length]
      exact Nat.min_eq_left hsize.le
    have hlen : PacketSize (s.server.packetData.take s.server.packetSize.toNat).length := by
      rw [hdata]
      exact hsize
    rw [hcall]
    refine ⟨?_, ?_, trivial,
      bytes ++ gap ++ frame first s.server.nextNum (s.server.packetData.take s.server.packetSize.toNat), ignored, soh,
      [], ?_, ?_, .inl rfl, trivial⟩
    · change server.blockNum + 1 = BitVec.ofNat 32 (s.taken ++ [_]).length
      rw [hsame.blockNum, h.blockNum, List.length_append, List.length_singleton, BitVec.ofNat_add]
      rfl
    · exact hsame.packetData ▸ h.length
    · change s.received = _
      rw [hreceived, htail, List.append_nil, List.append_assoc, List.append_assoc, List.append_assoc]
    · change Carries _ (s.taken ++ [(server.packetData.take server.packetSize.toNat, server.blockNum)])
      rw [hsame.packetData, hsame.packetSize, hsame.blockNum, h.blockNum, h.nextNum]
      exact hcarries.packet gap hfirst hlen

/-- **Every step** has a result, and keeps what was delivered and what is being received. -/
theorem Inv.step (h : s.Inv) (op : Op) : ∃ s', s.step op = some s' ∧ s'.Inv := by
  cases op with
  | rxByte byte =>
    obtain ⟨server, hserver, hinv⟩ := h.rxByte byte
    exact ⟨_, by rw [Session.step, hserver]; rfl, hinv⟩
  | process msTime => exact ⟨_, rfl, h.process msTime⟩

theorem Inv.run (h : s.Inv) (ops : List Op) : ∃ s', StepSystem.run Session.step s ops = some s' ∧ s'.Inv := by
  induction ops generalizing s with
  | nil => exact ⟨s, rfl, h⟩
  | cons op ops ih =>
    obtain ⟨s', hstep, h'⟩ := h.step op
    obtain ⟨s'', hrun, h''⟩ := ih h'
    exact ⟨s'', by rw [run_cons, hstep]; exact hrun, h''⟩

/-- The bytes of a run have been received. -/
theorem received_run {s s' : Session} {ops : List Op} (hrun : StepSystem.run Session.step s ops = some s') :
    s'.received = s.received ++ bytesOf ops := by
  induction ops generalizing s with
  | nil =>
    cases hrun
    exact (List.append_nil _).symm
  | cons op ops ih =>
    rw [run_cons] at hrun
    obtain ⟨next, hstep, hrun⟩ := Option.bind_eq_some_iff.mp hrun
    rw [ih hrun]
    cases op with
    | rxByte byte =>
      obtain ⟨server, -, rfl⟩ := Option.map_eq_some_iff.mp hstep
      exact List.append_assoc _ _ _
    | process msTime =>
      cases hstep
      rfl

end Session

/-- **What is delivered was received.** For all bytes on the line and all calls with any times, in any order: nothing
is accessed outside of the memory of a packet, and the packets that are taken are in the bytes that were received, one
behind the other, each with a byte that begins it, its number, of 8 bits, and its check; they are numbered from zero
on. -/
theorem xmodem_delivers_in_order (ops : List Op) :
    ∃ s, run Session.step .initial ops = some s ∧ s.received = bytesOf ops ∧ s.Delivers := by
  obtain ⟨s, hrun, hinv⟩ := Session.inv_initial.run ops
  exact ⟨s, hrun, Session.received_run hrun, hinv.delivers⟩

end I80k.Xmodem

import I80k.Xmodem.Delivery

/-!
# Frames at an XMODEM server

A frame comes in byte by byte, and the server may be called with the time between any two of them. As long as no call
comes late, these calls do nothing but take a packet that is complete: apart from its clock, and from the requests to
begin, the server is where the bytes alone would have led it.

A frame whose bytes were changed on the line between its header and its end is not taken, if what was changed is a
burst of at most 16 bits, or an odd number of bits.

## Main definitions

* `XmodemServer.quiet`: a server, apart from its clock and the requests to begin
* `XmodemServer.poll`: a packet is taken if it is complete
* `XmodemServer.receive`: bytes, none of which comes while a packet waits to be taken
* `Damaged`: a change of bytes that is noticed

## Main results

* `XmodemServer.process_onTime`: a call that is not late takes the packet, and does nothing else
* `Session.run_receive`: bytes with such calls between them
* `XmodemServer.receive_frame`: the bytes of a frame
* `ne_checkBytes_of_damaged`: a damaged frame does not have its check
-/

namespace I80k.Xmodem

open StepSystem

namespace XmodemServer

variable (xdm : XmodemServer)

/-! ## Calls that are not late -/

/-- A server, apart from its clock and the requests to begin. -/
def quiet : XmodemServer := { xdm with lastEventTime := 0, sent := xdm.sent.filter (· ≠ charC) }

/-- A packet is taken, if one is complete. -/
def poll : Option (List Byte × BitVec 32) × XmodemServer :=
  if xdm.state = .processPacket then
    (some (xdm.packetData.take xdm.packetSize.toNat, xdm.blockNum),
      txByte { xdm with blockNum := xdm.blockNum + 1, state := .soh } ack)
  else (none, xdm)

/-- A call does not come more than a second after what was last noted. -/
def OnTime (msTime : BitVec 64) : Prop :=
  xdm.state = .start ∨ xdm.lastEventTime = 0 ∨ nonzero msTime - xdm.lastEventTime ≤ packetTimeout

variable {xdm}

@[simp] theorem poll_snd_errorCount : xdm.poll.2.errorCount = xdm.errorCount := by
  unfold poll
  split_ifs
  · rfl
  · rfl

theorem poll_of_ne (hready : xdm.state ≠ .processPacket) : xdm.poll = (none, xdm) := if_neg hready

/-- A packet is taken once. -/
theorem poll_poll : xdm.poll.2.poll = (none, xdm.poll.2) := by
  by_cases hready : xdm.state = .processPacket
  · apply poll_of_ne
    rw [poll, if_pos hready]
    simp [txByte]
  · rw [poll_of_ne hready, poll_of_ne hready]

theorem state_eq_of_quiet {xdm' : XmodemServer} (h : xdm'.quiet = xdm.quiet) : xdm'.state = xdm.state := by
  change xdm'.quiet.state = xdm.quiet.state
  rw [h]

theorem errorCount_eq_of_quiet {xdm' : XmodemServer} (h : xdm'.quiet = xdm.quiet) :
    xdm'.errorCount = xdm.errorCount := by
  change xdm'.quiet.errorCount = xdm.quiet.errorCount
  rw [h]

theorem quiet_txByte {byte : Byte} (hbyte : byte ≠ charC) : (xdm.txByte byte).quiet = xdm.quiet.txByte byte := by
  simp [quiet, txByte, hbyte]

theorem quiet_initTimer (msTime : BitVec 64) : (xdm.initTimer msTime).quiet = xdm.quiet := by
  unfold initTimer
  split_ifs
  · rfl
  · rfl

theorem quiet_askAgain (msTime : BitVec 64) : (xdm.askAgain msTime).quiet = xdm.quiet := by
  unfold askAgain
  split_ifs
  · simp [quiet, txByte]
  · rfl

/-- The timer that is initialised has not run out, but at the start. -/
theorem initTimer_onTime {msTime : BitVec 64} (htime : xdm.OnTime msTime) :
    xdm.state = .start ∨ nonzero msTime - (xdm.initTimer (nonzero msTime)).lastEventTime ≤ packetTimeout := by
  unfold initTimer
  rcases htime with hstart | hzero | hlast
  · exact .inl hstart
  · rw [if_pos hzero, BitVec.sub_self]
    exact .inr (by decide)
  · split_ifs
    · rw [BitVec.sub_self]
      exact .inr (by decide)
    · exact .inr hlast

/-- The sender is asked before the timer runs out. -/
theorem askAgain_onTime {msTime : BitVec 64}
    (htime : xdm.state = .start ∨ msTime - xdm.lastEventTime ≤ packetTimeout) :
    msTime - (xdm.askAgain msTime).lastEventTime ≤ packetTimeout := by
  unfold askAgain
  split_ifs with hask
  · change msTime - msTime ≤ packetTimeout
    rw [BitVec.sub_self]
    decide
  · rcases htime with hstart | hlast
    · have hsoon : msTime - xdm.lastEventTime ≤ 500 := BitVec.not_lt.mp fun hlate => hask ⟨hstart, hlate⟩
      exact BitVec.le_trans hsoon (by decide)
    · exact hlast

/-- A call that is not late leaves the packet as it is. -/
theorem quiet_check {msTime : BitVec 64} (htime : xdm.OnTime msTime) (herrors : xdm.errorCount < maxErrors) :
    (xdm.check (nonzero msTime)).quiet = xdm.quiet := by
  have hquiet : ((xdm.initTimer (nonzero msTime)).askAgain (nonzero msTime)).quiet = xdm.quiet := by
    rw [quiet_askAgain, quiet_initTimer]
  have herror : ((xdm.initTimer (nonzero msTime)).askAgain (nonzero msTime)).errorCount = xdm.errorCount :=
    errorCount_eq_of_quiet hquiet
  have hlate : ¬ packetTimeout <
      nonzero msTime - ((xdm.initTimer (nonzero msTime)).askAgain (nonzero msTime)).lastEventTime := by
    have hstate : (xdm.initTimer (nonzero msTime)).state = xdm.state := state_eq_of_quiet (quiet_initTimer _)
    have htimer := initTimer_onTime htime
    rw [← hstate] at htimer
    exact BitVec.not_lt.mpr (askAgain_onTime htimer)
  rw [check, checkTimeout, if_neg hlate, checkErrors, herror, if_neg (BitVec.not_le.mpr herrors), hquiet]

/-- **A call that is not late** takes the packet, if it is complete, and does nothing else. -/
theorem process_onTime {msTime : BitVec 64} (htime : xdm.OnTime msTime) (herrors : xdm.errorCount < maxErrors) :
    ((xdm.process msTime).1, (xdm.process msTime).2.quiet) = xdm.quiet.poll := by
  have hquiet := quiet_check htime herrors
  have hstate : (xdm.check (nonzero msTime)).state = xdm.state := state_eq_of_quiet hquiet
  rw [process, poll]
  by_cases hdone : xdm.IsDone
  · have hready : ¬ xdm.quiet.state = .processPacket := by
      rcases hdone with heq | heq
      · exact fun h => absurd (heq.symm.trans h) (by decide)
      · exact fun h => absurd (heq.symm.trans h) (by decide)
    rw [if_pos hdone, if_neg hready]
  · rw [if_neg hdone]
    dsimp only
    rw [← hquiet]
    by_cases hready : (xdm.check (nonzero msTime)).state = .processPacket
    · rw [if_pos hready, if_pos (show (xdm.check (nonzero msTime)).quiet.state = _ from hready)]
      simp [takePacket, quiet, txByte, ack, charC]
    · rw [if_neg hready, if_neg (show ¬ (xdm.check (nonzero msTime)).quiet.state = _ from hready)]

/-! ## Bytes do not depend on the clock -/

theorem quiet_rxStart (byte : Byte) : (xdm.rxStart byte).quiet = xdm.quiet.rxStart byte := by
  have hack : ∀ s : XmodemServer, (s.txByte ack).quiet = s.quiet.txByte ack := fun s => quiet_txByte (by decide)
  rw [rxStart, rxStart, apply_ite quiet, apply_ite quiet, apply_ite quiet, hack]
  rfl

theorem quiet_rxRestart (byte : Byte) : (xdm.rxRestart byte).quiet = xdm.quiet.rxRestart byte := by
  rw [rxRestart, rxRestart, apply_ite quiet]
  rfl

theorem quiet_rxBlockNum (byte : Byte) : (xdm.rxBlockNum byte).quiet = xdm.quiet.rxBlockNum byte := by
  rw [rxBlockNum, rxBlockNum, apply_ite quiet, apply_ite quiet, quiet_rxRestart]
  rfl

theorem quiet_rxBlockNeg (byte : Byte) : (xdm.rxBlockNeg byte).quiet = xdm.quiet.rxBlockNeg byte := by
  rw [rxBlockNeg, rxBlockNeg, apply_ite quiet, quiet_rxRestart]
  rfl

theorem quiet_rxData (byte : Byte) : (xdm.rxData byte).map quiet = xdm.quiet.rxData byte := by
  rw [rxData, rxData, apply_ite (Option.map quiet), Option.map_some, apply_ite quiet]
  rfl

theorem quiet_rxCrc1 (byte : Byte) : (xdm.rxCrc1 byte).map quiet = xdm.quiet.rxCrc1 byte := by
  have hnack : ∀ s : XmodemServer, (s.txByte nack).quiet = s.quiet.txByte nack := fun s => quiet_txByte (by decide)
  rw [rxCrc1, rxCrc1, apply_ite (Option.map quiet), Option.map_some, apply_ite quiet, apply_ite quiet, hnack]
  rfl

/-- **A byte** does not depend on the clock. -/
theorem quiet_rxByte (byte : Byte) : (xdm.rxByte byte).map quiet = xdm.quiet.rxByte byte := by
  rw [rxByte, rxByte, show xdm.quiet.state = xdm.state from rfl]
  cases xdm.state with
  | start => exact congrArg some (quiet_rxStart byte)
  | soh => exact congrArg some (quiet_rxStart byte)
  | blockNum => exact congrArg some (quiet_rxBlockNum byte)
  | blockNeg => exact congrArg some (quiet_rxBlockNeg byte)
  | data => exact quiet_rxData byte
  | crc0 => rfl
  | crc1 => exact quiet_rxCrc1 byte
  | processPacket => rfl
  | successful => rfl
  | failure => rfl

/-! ## Bytes with calls between them -/

/-- Bytes, none of which comes while a packet waits to be taken, or when there have been too many errors. -/
def receive (xdm : XmodemServer) : List Byte → Option XmodemServer
  | [] => some xdm
  | byte :: bytes =>
    if xdm.state = .processPacket ∨ maxErrors ≤ xdm.errorCount then none
    else (xdm.rxByte byte).bind fun xdm => receive xdm bytes

theorem receive_append (xdm : XmodemServer) (xs ys : List Byte) :
    xdm.receive (xs ++ ys) = (xdm.receive xs).bind fun xdm => xdm.receive ys := by
  induction xs generalizing xdm with
  | nil => rfl
  | cons x xs ih =>
    rw [List.cons_append, receive, receive]
    split_ifs
    · rfl
    · rw [Option.bind_assoc]
      simp only [ih]

theorem receive_cons {byte : Byte} {bytes : List Byte} {xdm' : XmodemServer} (hbyte : xdm.rxByte byte = some xdm')
    (hready : xdm.state ≠ .processPacket) (herrors : xdm.errorCount < maxErrors) :
    xdm.receive (byte :: bytes) = xdm'.receive bytes := by
  rw [receive, if_neg, hbyte, Option.bind_some]
  rintro (h | h)
  · exact hready h
  · exact BitVec.not_le.mpr herrors h

theorem errorCount_of_receive {bytes : List Byte} {xdm' : XmodemServer} (h : xdm.receive bytes = some xdm')
    (herrors : xdm'.errorCount < maxErrors) : xdm.errorCount < maxErrors := by
  cases bytes with
  | nil =>
    cases h
    exact herrors
  | cons byte bytes =>
    rw [receive] at h
    split_ifs at h with hguard
    exact BitVec.not_le.mp (not_or.mp hguard).2

/-- No byte comes while a packet waits. -/
theorem eq_nil_of_receive {bytes : List Byte} {xdm' : XmodemServer} (h : xdm.receive bytes = some xdm')
    (hready : xdm.state = .processPacket) : bytes = [] := by
  cases bytes with
  | nil => rfl
  | cons byte bytes =>
    rw [receive, if_pos (.inl hready)] at h
    cases h

/-! ## The bytes of a frame -/

/-- The byte that begins a packet of a size. -/
def firstOf (size : ℕ) : Byte := if size = 128 then soh else stx

/-- The number that a packet has: the next one, or the one before. -/
def numOf (xdm : XmodemServer) (again : Bool) : Byte := if again then xdm.lastNum else xdm.nextNum

theorem lastNum_ne_nextNum : xdm.lastNum ≠ xdm.nextNum := by
  rw [lastNum, nextNum]
  intro h
  bv_omega

theorem toNat_packetSize {size : ℕ} (hsize : PacketSize size) : (BitVec.ofNat 16 size).toNat = size := by
  rcases hsize with rfl | rfl
  · rfl
  · rfl

theorem rxStart_firstOf {size : ℕ} (hsize : PacketSize size) :
    xdm.rxStart (firstOf size) = { xdm with state := .blockNum, packetSize := BitVec.ofNat 16 size } := by
  rcases hsize with rfl | rfl
  · rfl
  · rfl

theorem rxBlockNum_numOf (again : Bool) :
    xdm.rxBlockNum (xdm.numOf again) = { xdm with state := .blockNeg, repeating := again } := by
  cases again with
  | false => exact if_pos rfl
  | true => exact (if_neg lastNum_ne_nextNum).trans (if_pos rfl)

/-- **The header** of a frame. -/
theorem receive_header (hstate : xdm.state = .start ∨ xdm.state = .soh) (herrors : xdm.errorCount < maxErrors)
    {size : ℕ} (hsize : PacketSize size) (again : Bool) :
    xdm.receive [firstOf size, xdm.numOf again, ~~~xdm.numOf again] =
      some { xdm with
        state := .data, packetSize := BitVec.ofNat 16 size, packetPos := 0, repeating := again } := by
  have hready : xdm.state ≠ .processPacket := by
    rcases hstate with heq | heq
    · simp [heq]
    · simp [heq]
  have hfirst : xdm.rxByte (firstOf size) =
      some { xdm with state := .blockNum, packetSize := BitVec.ofNat 16 size } := by
    rw [rxByte, ← rxStart_firstOf hsize]
    rcases hstate with heq | heq
    · rw [heq]
    · rw [heq]
  let begun : XmodemServer := { xdm with state := .blockNum, packetSize := BitVec.ofNat 16 size }
  have hnum : begun.rxByte (xdm.numOf again) = some { begun with state := .blockNeg, repeating := again } :=
    congrArg some (rxBlockNum_numOf again)
  have hneg : ({ begun with state := .blockNeg, repeating := again } : XmodemServer).rxByte (~~~xdm.numOf again) =
      some { begun with state := .data, packetPos := 0, repeating := again } := by
    cases again with
    | false => exact congrArg some (if_pos rfl)
    | true => exact congrArg some (if_pos rfl)
  rw [receive_cons hfirst hready herrors, receive_cons hnum (by simp [begun]) herrors, receive_cons hneg (by simp) herrors]
  rfl

/-- A byte of the data is stored. -/
theorem rxByte_data (hstate : xdm.state = .data) (hpos : xdm.packetPos.toNat < maxPacketSize) (byte : Byte) :
    xdm.rxByte byte = some { xdm with
      packetData := xdm.packetData.set xdm.packetPos.toNat byte
      packetPos := xdm.packetPos + 1
      state := if xdm.packetSize ≤ xdm.packetPos + 1 then .crc0 else .data } := by
  rw [rxByte, hstate]
  change xdm.rxData byte = _
  rw [rxData, if_pos hpos, ← hstate]
  dsimp only
  congr 1
  split_ifs
  · rfl
  · rfl

/-- **The data** of a frame. -/
theorem receive_data {bytes : List Byte} (hstate : xdm.state = .data) (herrors : xdm.errorCount < maxErrors)
    (hlength : xdm.packetData.length = maxPacketSize) (hsize : PacketSize xdm.packetSize.toNat)
    (hbytes : xdm.packetPos.toNat + bytes.length = xdm.packetSize.toNat) (hne : bytes ≠ []) :
    ∃ stored, stored.length = maxPacketSize ∧
      stored.take xdm.packetSize.toNat = xdm.packetData.take xdm.packetPos.toNat ++ bytes ∧
      xdm.receive bytes =
        some { xdm with state := .crc0, packetData := stored, packetPos := xdm.packetSize } := by
  induction bytes generalizing xdm with
  | nil => exact absurd rfl hne
  | cons byte bytes ih =>
    rw [List.length_cons] at hbytes
    have hle : xdm.packetSize.toNat ≤ 1024 := hsize.le
    have hpos : xdm.packetPos.toNat < maxPacketSize := by
      change xdm.packetPos.toNat < 1024
      omega
    have hnext : (xdm.packetPos + 1).toNat = xdm.packetPos.toNat + 1 := by bv_omega
    have hset := Session.take_set (hlength ▸ hpos) byte
    rw [receive_cons (rxByte_data hstate hpos byte) (by simp [hstate]) herrors]
    cases bytes with
    | nil =>
      have hlast : xdm.packetPos + 1 = xdm.packetSize := by
        apply BitVec.eq_of_toNat_eq
        rw [hnext]
        exact hbytes
      have hlen : (xdm.packetData.set xdm.packetPos.toNat byte).length = maxPacketSize := List.length_set.trans hlength
      refine ⟨xdm.packetData.set xdm.packetPos.toNat byte, hlen, ?_, ?_⟩
      · rw [← hlast, hnext, hset]
      · rw [hlast, if_pos (BitVec.le_refl _)]
        rfl
    | cons next bytes =>
      have hmore : ¬ xdm.packetSize ≤ xdm.packetPos + 1 := by
        rw [List.length_cons] at hbytes
        rw [BitVec.le_def, hnext]
        omega
      rw [if_neg hmore]
      let stored : XmodemServer := { xdm with
        packetData := xdm.packetData.set xdm.packetPos.toNat byte, packetPos := xdm.packetPos + 1, state := .data }
      have hrest : stored.packetPos.toNat + (next :: bytes).length = stored.packetSize.toNat := by
        change (xdm.packetPos + 1).toNat + _ = xdm.packetSize.toNat
        rw [hnext, ← hbytes]
        omega
      have hlen : stored.packetData.length = maxPacketSize := List.length_set.trans hlength
      obtain ⟨data, hdata, htake, hreceive⟩ := ih (show stored.state = .data from rfl) herrors hlen hsize hrest (by simp)
      refine ⟨data, hdata, ?_, hreceive⟩
      rw [show data.take xdm.packetSize.toNat = _ from htake]
      change (xdm.packetData.set xdm.packetPos.toNat byte).take (xdm.packetPos + 1).toNat ++ _ = _
      rw [hnext, hset, List.append_assoc]
      rfl

/-- The check of a packet has been received. -/
def checked (xdm : XmodemServer) (crc : BitVec 16) : XmodemServer :=
  if crcOf (xdm.packetData.take xdm.packetSize.toNat) ≠ crc then
    txByte { xdm with crc, errorCount := xdm.errorCount + 1, state := .soh } nack
  else if xdm.repeating then { xdm with crc, state := .soh }
  else { xdm with crc, state := .processPacket }

/-- **The check** of a frame. -/
theorem receive_check (hstate : xdm.state = .crc0) (herrors : xdm.errorCount < maxErrors)
    (hsize : PacketSize xdm.packetSize.toNat) (hi lo : Byte) :
    xdm.receive [hi, lo] = some (xdm.checked (hi.setWidth 16 <<< 8 ||| lo.setWidth 16)) := by
  have hhigh : xdm.rxByte hi = some { xdm with crc := hi.setWidth 16 <<< 8, state := .crc1 } := by
    rw [rxByte, hstate]
    rfl
  have hlow : ({ xdm with crc := hi.setWidth 16 <<< 8, state := .crc1 } : XmodemServer).rxByte lo =
      some (xdm.checked (hi.setWidth 16 <<< 8 ||| lo.setWidth 16)) := if_pos hsize.le
  rw [receive_cons hhigh (by simp [hstate]) herrors, receive_cons hlow (by simp) herrors]
  rfl

/-- **The bytes of a frame** that comes while no packet is begun. -/
theorem receive_frame (hstate : xdm.state = .start ∨ xdm.state = .soh) (herrors : xdm.errorCount < maxErrors)
    (hlength : xdm.packetData.length = maxPacketSize) {data : List Byte} (hsize : PacketSize data.length)
    (again : Bool) (hi lo : Byte) :
    ∃ stored : List Byte, stored.length = maxPacketSize ∧ stored.take data.length = data ∧
      xdm.receive (firstOf data.length :: xdm.numOf again :: ~~~xdm.numOf again :: (data ++ [hi, lo])) =
        some (checked
          { xdm with
            state := .crc0
            packetData := stored
            packetPos := BitVec.ofNat 16 data.length
            packetSize := BitVec.ofNat 16 data.length
            repeating := again }
          (hi.setWidth 16 <<< 8 ||| lo.setWidth 16)) := by
  have htoNat := toNat_packetSize hsize
  have hne : data ≠ [] := by
    rintro rfl
    exact absurd hsize (by decide)
  let begun : XmodemServer := { xdm with
    state := .data, packetSize := BitVec.ofNat 16 data.length, packetPos := 0, repeating := again }
  have hbegun : PacketSize begun.packetSize.toNat := by
    change PacketSize (BitVec.ofNat 16 data.length).toNat
    rwa [htoNat]
  have hbytes : begun.packetPos.toNat + data.length = begun.packetSize.toNat := by
    change (0 : BitVec 16).toNat + data.length = (BitVec.ofNat 16 data.length).toNat
    rw [htoNat]
    exact Nat.zero_add _
  obtain ⟨stored, hlen, htake, hdata⟩ := receive_data (show begun.state = .data from rfl) herrors hlength hbegun hbytes hne
  refine ⟨stored, hlen, ?_, ?_⟩
  · rw [← htoNat]
    exact htake
  · have hcheck := receive_check (show
      ({ begun with state := .crc0, packetData := stored, packetPos := begun.packetSize } : XmodemServer).state = .crc0
      from rfl) herrors hbegun hi lo
    rw [show firstOf data.length :: xdm.numOf again :: ~~~xdm.numOf again :: (data ++ [hi, lo]) =
      [firstOf data.length, xdm.numOf again, ~~~xdm.numOf again] ++ (data ++ [hi, lo]) from rfl, receive_append,
      receive_header hstate herrors hsize again, Option.bind_some, receive_append, hdata, Option.bind_some, hcheck]

end XmodemServer

/-! ## Damage -/

/-- Bytes were changed on the line, by a burst of at most 16 bits or in an odd number of bits. -/
def Damaged (bytes received : List Byte) : Prop :=
  bytes.length = received.length ∧
    (Crc.Burst 16 (List.zipWith (· ^^ ·) (bitsOf bytes) (bitsOf received)) ∨
      Crc.odd (List.zipWith (· ^^ ·) (bitsOf bytes) (bitsOf received)) = true)

theorem length_bitsOf (bytes : List Byte) : (bitsOf bytes).length = 8 * bytes.length := by
  induction bytes with
  | nil => rfl
  | cons byte bytes ih =>
    rw [bitsOf, List.flatMap_cons, List.length_append, Crc.length_bitsOf, ← bitsOf, ih, List.length_cons]
    omega

theorem bitsOf_checkBytes (crc : BitVec 16) : bitsOf (checkBytes crc) = Crc.bitsOf crc := by
  have hcrc : (crc >>> 8).setWidth 8 ++ crc.setWidth 8 = crc := by
    ext i hi
    rw [BitVec.getElem_append]
    split_ifs with hlow
    · simp [BitVec.getLsbD_eq_getElem hi]
    · simp [show 8 + (i - 8) = i by omega, BitVec.getLsbD_eq_getElem hi]
  conv_rhs => rw [← hcrc, Crc.bitsOf_append]
  exact congrArg _ (List.append_nil _)

/-- The check of data with its check behind it is zero. -/
theorem feed_checkBytes (data : List Byte) :
    Crc.feed crcPoly 0 (bitsOf (data ++ checkBytes (crcOf data))) = 0 := by
  have hbits : bitsOf (data ++ checkBytes (crcOf data)) = bitsOf data ++ bitsOf (checkBytes (crcOf data)) :=
    List.flatMap_append
  rw [hbits, bitsOf_checkBytes, Crc.feed_append, ← crcOf_eq_feed]
  exact (Crc.feed_bitsOf_eq_zero_iff (by decide)).mpr rfl

/-- **Damage is noticed.** -/
theorem ne_crcOf_of_damaged {data data' : List Byte} {hi lo : Byte}
    (h : Damaged (data ++ checkBytes (crcOf data)) (data' ++ [hi, lo])) :
    crcOf data' ≠ hi.setWidth 16 <<< 8 ||| lo.setWidth 16 := by
  intro heq
  obtain ⟨hlen, hdiff⟩ := h
  have hlength : (bitsOf (data ++ checkBytes (crcOf data))).length = (bitsOf (data' ++ [hi, lo])).length := by
    rw [length_bitsOf, length_bitsOf, hlen]
  have hreceived : Crc.feed crcPoly 0 (bitsOf (data' ++ [hi, lo])) = 0 := by
    rw [← Session.checkBytes_of_or hi lo, ← heq]
    exact feed_checkBytes data'
  have hsame := (feed_checkBytes data).trans hreceived.symm
  rcases hdiff with hburst | hodd
  · exact Crc.feed_ne_of_burst (by decide) 0 hlength hburst hsame
  · exact Crc.feed_ne_of_odd (by decide) 0 hlength hodd hsame

namespace Session

open XmodemServer

/-- The calls of a run are not late. -/
def OnTime (s : Session) : Op → Prop
  | .rxByte _ => True
  | .process msTime => s.server.OnTime msTime

/-- **Bytes with calls between them**, none of which is late: they lead to where the bytes alone lead, and the packet
that is complete then may have been taken. -/
theorem run_receive {s : Session} {ops : List Op} {xdm : XmodemServer}
    (hreceive : s.server.quiet.receive (bytesOf ops) = some xdm) (herrors : xdm.errorCount < maxErrors)
    (htime : Steps Session.step OnTime s ops) :
    ∃ s', run Session.step s ops = some s' ∧
      (s'.server.quiet = xdm ∧ s'.taken = s.taken ∨
        s'.server.quiet = xdm.poll.2 ∧ s'.taken = s.taken ++ xdm.poll.1.toList) := by
  induction ops generalizing s xdm with
  | nil => exact ⟨s, rfl, .inl ⟨Option.some.inj hreceive, rfl⟩⟩
  | cons op ops ih =>
    obtain ⟨honTime, htime⟩ := htime
    rw [run_cons]
    cases op with
    | rxByte byte =>
      rw [show bytesOf (.rxByte byte :: ops) = byte :: bytesOf ops from rfl, receive] at hreceive
      split_ifs at hreceive with hguard
      rw [← quiet_rxByte, Option.bind_map] at hreceive
      obtain ⟨server, hserver, hreceive⟩ := Option.bind_eq_some_iff.mp hreceive
      have hstep : s.step (.rxByte byte) = some { s with server, received := s.received ++ [byte] } := by
        rw [Session.step, hserver, Option.map_some]
      rw [hstep, Option.bind_some]
      exact ih hreceive herrors (htime _ hstep)
    | process msTime =>
      change s.server.quiet.receive (bytesOf ops) = some xdm at hreceive
      have hfew := errorCount_of_receive hreceive herrors
      have hpoll := process_onTime honTime hfew
      rcases hcall : s.server.process msTime with ⟨packet, server⟩
      have hstep : s.step (.process msTime) = some { s with server, taken := s.taken ++ packet.toList } := by
        rw [Session.step, hcall]
      rw [hcall] at hpoll
      have hserver : server.quiet = s.server.quiet.poll.2 := by rw [← hpoll]
      have hpacket : packet = s.server.quiet.poll.1 := by rw [← hpoll]
      rw [hstep, Option.bind_some]
      by_cases hready : s.server.state = .processPacket
      · -- the packet is taken, and nothing comes behind it
        have hnil := eq_nil_of_receive hreceive hready
        rw [hnil] at hreceive
        obtain rfl : s.server.quiet = xdm := Option.some.inj hreceive
        have hlast : server.quiet.receive (bytesOf ops) = some s.server.quiet.poll.2 := by
          rw [hnil, hserver]
          rfl
        obtain ⟨s', hrun, h⟩ := ih hlast (by rwa [poll_snd_errorCount]) (htime _ hstep)
        rw [poll_poll, Option.toList_none, List.append_nil, or_self] at h
        exact ⟨s', hrun, .inr ⟨h.1, by rw [h.2, hpacket]⟩⟩
      · rw [poll_of_ne (show s.server.quiet.state ≠ _ from hready)] at hserver hpacket
        obtain rfl : packet = none := hpacket
        rw [← show server.quiet = s.server.quiet from hserver] at hreceive
        obtain ⟨s', hrun, h⟩ := ih hreceive herrors (htime _ hstep)
        rw [Option.toList_none, List.append_nil] at h
        exact ⟨s', hrun, h⟩

/-- Bytes that do not complete a packet. -/
theorem run_receive_of_ne {s : Session} {ops : List Op} {xdm : XmodemServer}
    (hreceive : s.server.quiet.receive (bytesOf ops) = some xdm) (hready : xdm.state ≠ .processPacket)
    (herrors : xdm.errorCount < maxErrors) (htime : Steps Session.step OnTime s ops) :
    ∃ s', run Session.step s ops = some s' ∧ s'.server.quiet = xdm ∧ s'.taken = s.taken := by
  obtain ⟨s', hrun, h⟩ := run_receive hreceive herrors htime
  rw [poll_of_ne hready, Option.toList_none, List.append_nil, or_self] at h
  exact ⟨s', hrun, h⟩

/-- Bytes that complete a packet, and a call that is not late behind them. -/
theorem run_receive_process {s : Session} {ops : List Op} {xdm : XmodemServer} {msTime : BitVec 64}
    (hreceive : s.server.quiet.receive (bytesOf ops) = some xdm) (herrors : xdm.errorCount < maxErrors)
    (htime : Steps Session.step OnTime s (ops ++ [.process msTime])) :
    ∃ s', run Session.step s (ops ++ [.process msTime]) = some s' ∧ s'.server.quiet = xdm.poll.2 ∧
      s'.taken = s.taken ++ xdm.poll.1.toList := by
  obtain ⟨htime, hlast⟩ := htime.of_append
  obtain ⟨s', hrun, h⟩ := run_receive hreceive herrors htime
  have honTime : s'.server.OnTime msTime := (hlast s' hrun).1
  rcases hcall : s'.server.process msTime with ⟨packet, server⟩
  have hstep : s'.step (.process msTime) = some { s' with server, taken := s'.taken ++ packet.toList } := by
    rw [Session.step, hcall]
  refine ⟨_, by rw [run_snoc, hrun]; exact hstep, ?_⟩
  dsimp only
  rcases h with ⟨hquiet, htaken⟩ | ⟨hquiet, htaken⟩
  · have hfew : s'.server.errorCount < maxErrors := by
      change s'.server.quiet.errorCount < maxErrors
      rwa [hquiet]
    have hpoll := process_onTime honTime hfew
    rw [hcall, hquiet] at hpoll
    rw [← hpoll, htaken]
    exact ⟨rfl, rfl⟩
  · -- the packet has been taken
    have hfew : s'.server.errorCount < maxErrors := by
      change s'.server.quiet.errorCount < maxErrors
      rwa [hquiet, poll_snd_errorCount]
    have hpoll := process_onTime honTime hfew
    rw [hcall, hquiet, poll_poll] at hpoll
    obtain ⟨rfl, hserver⟩ := Prod.mk.inj hpoll
    rw [hserver, Option.toList_none, List.append_nil]
    exact ⟨rfl, htaken⟩

end Session

end I80k.Xmodem

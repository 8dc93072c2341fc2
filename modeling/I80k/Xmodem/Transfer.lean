import I80k.Xmodem.Frame

/-!
# Transfers over a line that damages frames

A sender gives the packets of a file one by one. The frame of a packet may be damaged on the line, and then it is sent
again; and it may be sent again although it was taken, if the sender did not see the acknowledgement. The server is
called with the time between any two bytes, but never late.

Then every packet is taken exactly once, in order and with its number, as long as there are fewer than ten damaged
frames. A damaged frame is answered with `NACK` and a new packet with `ACK`; but a packet that was taken before has no
answer at all, so that a sender whose acknowledgement was lost waits until the server's timer runs out.

## Main definitions

* `rxPacket`: the frame that a sender makes of a packet
* `Sends`: the calls of a transfer, and the answers that they lead to
* `Session.Between`: no packet is begun

## Main results

* `Session.Between.good`, `Session.Between.damaged`, `Session.Between.again`: what a frame does
* `xmodem_transfer`: a transfer delivers the packets
-/

namespace I80k.Xmodem

open StepSystem XmodemServer

/-- A frame of a number, as the sender of the tests makes it: `data` is what comes in, and `crc` what it is checked
against. -/
def rxPacket (num : Byte) (data check : List Byte) : List Byte :=
  firstOf data.length :: num :: ~~~num :: (data ++ check)

/-- The number that the frame of the next packet has, or, again, that of the packet before. -/
def numAt (n : ℕ) (again : Bool) : Byte := BitVec.ofNat 8 (if again then n else n + 1)

/-- The calls of a transfer, from the packet `n` on: the packets that are new, the number of frames that are damaged,
and the answers. -/
inductive Sends : ℕ → List (List Byte) → ℕ → List Byte → List Op → Prop
  | eot {n : ℕ} {ops : List Op} (hbytes : bytesOf ops = [eot]) : Sends n [] 0 [ack] ops
  | good {n errors : ℕ} {data : List Byte} {packets : List (List Byte)} {answers : List Byte} {ops ops' : List Op}
      (msTime : BitVec 64) (hsize : PacketSize data.length)
      (hbytes : bytesOf ops = rxPacket (numAt n false) data (checkBytes (crcOf data)))
      (rest : Sends (n + 1) packets errors answers ops') :
      Sends n (data :: packets) errors (ack :: answers) (ops ++ .process msTime :: ops')
  | damaged {n errors : ℕ} {data data' : List Byte} {hi lo : Byte} {packets : List (List Byte)} {answers : List Byte}
      {ops ops' : List Op} (again : Bool) (hsize : PacketSize data'.length)
      (hdamaged : Damaged (data ++ checkBytes (crcOf data)) (data' ++ [hi, lo]))
      (hbytes : bytesOf ops = rxPacket (numAt n again) data' [hi, lo])
      (rest : Sends n packets errors answers ops') :
      Sends n packets (errors + 1) (nack :: answers) (ops ++ ops')
  | again {n errors : ℕ} {data : List Byte} {packets : List (List Byte)} {answers : List Byte} {ops ops' : List Op}
      (hsize : PacketSize data.length)
      (hbytes : bytesOf ops = rxPacket (numAt n true) data (checkBytes (crcOf data)))
      (rest : Sends n packets errors answers ops') : Sends n packets errors answers (ops ++ ops')

namespace Session

variable {s : Session} {n errors : ℕ}

/-- What the server answered, apart from the requests to begin. -/
def answers (s : Session) : List Byte := s.server.quiet.sent

/-- No packet is begun, and `n` of them were taken. -/
structure Between (s : Session) (n errors : ℕ) : Prop where
  state : s.server.state = .start ∨ s.server.state = .soh
  blockNum : s.server.blockNum = BitVec.ofNat 32 n
  length : s.server.packetData.length = maxPacketSize
  errorCount : s.server.errorCount = BitVec.ofNat 32 errors

theorem between_initial : initial.Between 0 0 := ⟨.inl rfl, rfl, List.length_replicate, rfl⟩

theorem between_of_quiet {xdm : XmodemServer} (hquiet : s.server.quiet = xdm) (hstate : xdm.state = .soh)
    (hnum : xdm.blockNum = BitVec.ofNat 32 n) (hlength : xdm.packetData.length = maxPacketSize)
    (hcount : xdm.errorCount = BitVec.ofNat 32 errors) : s.Between n errors := by
  subst hquiet
  exact ⟨.inr hstate, hnum, hlength, hcount⟩

/-- Few errors are fewer than too many. -/
theorem Between.few (h : s.Between n errors) (herrors : errors < 10) : s.server.errorCount < maxErrors := by
  rw [h.errorCount]
  exact (BitVec.lt_def).mpr (by rw [BitVec.toNat_ofNat]; exact (Nat.mod_le _ _).trans_lt herrors)

/-- The bytes of a check are the check. -/
theorem or_of_checkBytes (crc : BitVec 16) :
    ((crc >>> 8).setWidth 8).setWidth 16 <<< 8 ||| (crc.setWidth 8).setWidth 16 = crc := by
  ext i hi
  by_cases hlow : i < 8
  · simp [hlow, BitVec.getLsbD_eq_getElem hi]
  · simp [hlow, show 8 + (i - 8) = i by omega, show i - 8 < 8 by omega, BitVec.getLsbD_eq_getElem hi]

theorem Between.numOf_eq (h : s.Between n errors) (again : Bool) : s.server.quiet.numOf again = numAt n again := by
  have hone : (1 : BitVec 32).toNat = 1 := rfl
  apply BitVec.eq_of_toNat_eq
  cases again with
  | false =>
    change ((s.server.blockNum + 1).setWidth 8).toNat = (BitVec.ofNat 8 (n + 1)).toNat
    rw [h.blockNum]
    simp only [BitVec.toNat_setWidth, BitVec.toNat_add, BitVec.toNat_ofNat, hone]
    omega
  | true =>
    change (s.server.blockNum.setWidth 8).toNat = (BitVec.ofNat 8 n).toNat
    rw [h.blockNum]
    simp only [BitVec.toNat_setWidth, BitVec.toNat_ofNat]
    omega

/-- The bytes of a frame that comes while no packet is begun. -/
theorem Between.receive (h : s.Between n errors) (herrors : errors < 10) {data : List Byte}
    (hsize : PacketSize data.length) (again : Bool) (hi lo : Byte) :
    ∃ stored : List Byte, stored.length = maxPacketSize ∧ stored.take data.length = data ∧
      s.server.quiet.receive (rxPacket (numAt n again) data [hi, lo]) =
        some (checked
          { s.server.quiet with
            state := .crc0
            packetData := stored
            packetPos := BitVec.ofNat 16 data.length
            packetSize := BitVec.ofNat 16 data.length
            repeating := again }
          (hi.setWidth 16 <<< 8 ||| lo.setWidth 16)) := by
  have hframe := receive_frame (show s.server.quiet.state = .start ∨ s.server.quiet.state = .soh from h.state)
    (h.few herrors) h.length hsize again hi lo
  rw [h.numOf_eq] at hframe
  exact hframe

/-- **A damaged frame** is answered with `NACK`. -/
theorem Between.damaged (h : s.Between n errors) (herrors : errors + 1 < 10) {data data' : List Byte} {hi lo : Byte}
    {ops : List Op} (again : Bool) (hsize : PacketSize data'.length)
    (hdamaged : Damaged (data ++ checkBytes (crcOf data)) (data' ++ [hi, lo]))
    (hbytes : bytesOf ops = rxPacket (numAt n again) data' [hi, lo]) (htime : Steps Session.step OnTime s ops) :
    ∃ s', run Session.step s ops = some s' ∧ s'.Between n (errors + 1) ∧ s'.taken = s.taken ∧
      s'.answers = s.answers ++ [nack] := by
  obtain ⟨stored, hlen, htake, hreceive⟩ := h.receive (Nat.lt_of_succ_lt herrors) hsize again hi lo
  rw [checked] at hreceive
  dsimp only at hreceive
  rw [toNat_packetSize hsize, htake, if_pos (ne_crcOf_of_damaged hdamaged), ← hbytes] at hreceive
  have hcount : s.server.errorCount + 1 = BitVec.ofNat 32 (errors + 1) := by
    rw [h.errorCount, BitVec.ofNat_add]
    rfl
  have hfew : s.server.errorCount + 1 < maxErrors := by
    rw [hcount, BitVec.lt_def, BitVec.toNat_ofNat]
    exact (Nat.mod_le _ _).trans_lt herrors
  obtain ⟨s', hrun, hquiet, htaken⟩ := run_receive_of_ne hreceive (by simp [txByte]) hfew htime
  refine ⟨s', hrun, between_of_quiet hquiet rfl h.blockNum hlen hcount, htaken, ?_⟩
  rw [answers, hquiet]
  rfl

/-- **The frame of a packet that was taken** has no answer. -/
theorem Between.again (h : s.Between n errors) (herrors : errors < 10) {data : List Byte} {ops : List Op}
    (hsize : PacketSize data.length)
    (hbytes : bytesOf ops = rxPacket (numAt n true) data (checkBytes (crcOf data)))
    (htime : Steps Session.step OnTime s ops) :
    ∃ s', run Session.step s ops = some s' ∧ s'.Between n errors ∧ s'.taken = s.taken ∧ s'.answers = s.answers := by
  obtain ⟨stored, hlen, htake, hreceive⟩ := h.receive herrors hsize true ((crcOf data >>> 8).setWidth 8)
    ((crcOf data).setWidth 8)
  rw [checked] at hreceive
  dsimp only at hreceive
  rw [or_of_checkBytes, toNat_packetSize hsize, htake, if_neg (not_not.mpr rfl), if_pos rfl,
    show [(crcOf data >>> 8).setWidth 8, (crcOf data).setWidth 8] = checkBytes (crcOf data) from rfl,
    ← hbytes] at hreceive
  obtain ⟨s', hrun, hquiet, htaken⟩ := run_receive_of_ne hreceive (by simp) (h.few herrors) htime
  refine ⟨s', hrun, between_of_quiet hquiet rfl h.blockNum hlen h.errorCount, htaken, ?_⟩
  rw [answers, hquiet]
  rfl

/-- **The frame of a new packet** delivers it, and is answered with `ACK`. -/
theorem Between.good (h : s.Between n errors) (herrors : errors < 10) {data : List Byte} {ops : List Op}
    {msTime : BitVec 64} (hsize : PacketSize data.length)
    (hbytes : bytesOf ops = rxPacket (numAt n false) data (checkBytes (crcOf data)))
    (htime : Steps Session.step OnTime s (ops ++ [.process msTime])) :
    ∃ s', run Session.step s (ops ++ [.process msTime]) = some s' ∧ s'.Between (n + 1) errors ∧
      s'.taken = s.taken ++ [(data, BitVec.ofNat 32 n)] ∧ s'.answers = s.answers ++ [ack] := by
  obtain ⟨stored, hlen, htake, hreceive⟩ := h.receive herrors hsize false ((crcOf data >>> 8).setWidth 8)
    ((crcOf data).setWidth 8)
  rw [checked] at hreceive
  dsimp only at hreceive
  rw [or_of_checkBytes, toNat_packetSize hsize, htake, if_neg (not_not.mpr rfl), if_neg (by simp),
    show [(crcOf data >>> 8).setWidth 8, (crcOf data).setWidth 8] = checkBytes (crcOf data) from rfl,
    ← hbytes] at hreceive
  obtain ⟨s', hrun, hquiet, htaken⟩ := run_receive_process hreceive (h.few herrors) htime
  rw [poll, if_pos rfl] at hquiet htaken
  have hnum : s.server.blockNum + 1 = BitVec.ofNat 32 (n + 1) := by
    rw [h.blockNum, BitVec.ofNat_add]
    rfl
  refine ⟨s', hrun, between_of_quiet hquiet rfl hnum hlen h.errorCount, ?_, ?_⟩
  · rw [htaken]
    dsimp only
    rw [toNat_packetSize hsize, htake, show s.server.quiet.blockNum = _ from h.blockNum]
    rfl
  · rw [answers, hquiet]
    rfl

/-- **The end** of a transfer. -/
theorem Between.eot (h : s.Between n errors) (herrors : errors < 10) {ops : List Op}
    (hbytes : bytesOf ops = [Xmodem.eot])
    (htime : Steps Session.step OnTime s ops) :
    ∃ s', run Session.step s ops = some s' ∧ s'.server.state = .successful ∧ s'.taken = s.taken ∧
      s'.answers = s.answers ++ [ack] := by
  have hstate : s.server.quiet.state = .start ∨ s.server.quiet.state = .soh := h.state
  have hready : s.server.quiet.state ≠ .processPacket := by
    rcases hstate with heq | heq
    · simp [heq]
    · simp [heq]
  have hbyte : s.server.quiet.rxByte Xmodem.eot = some (txByte { s.server.quiet with state := .successful } ack) := by
    rw [rxByte]
    rcases hstate with heq | heq
    · rw [heq]
      rfl
    · rw [heq]
      rfl
  have hreceive : s.server.quiet.receive [Xmodem.eot] = some (txByte { s.server.quiet with state := .successful } ack) :=
    receive_cons hbyte hready (h.few herrors)
  rw [← hbytes] at hreceive
  obtain ⟨s', hrun, hquiet, htaken⟩ := run_receive_of_ne hreceive (by simp [txByte]) (h.few herrors) htime
  refine ⟨s', hrun, ?_, htaken, ?_⟩
  · change s'.server.quiet.state = .successful
    rw [hquiet]
    rfl
  · rw [answers, hquiet]
    rfl

/-- A check leaves the clock as it is, or sets it. -/
theorem check_lastEventTime (xdm : XmodemServer) (msTime : BitVec 64) :
    (xdm.check msTime).lastEventTime = xdm.lastEventTime ∨ (xdm.check msTime).lastEventTime = msTime := by
  rw [check, checkErrors]
  split_ifs
  · exact .inr rfl
  · rw [checkTimeout]
    split_ifs
    · exact .inr rfl
    · rw [askAgain]
      split_ifs
      · exact .inr rfl
      · rw [initTimer]
        split_ifs
        · exact .inr rfl
        · exact .inl rfl

theorem process_lastEventTime (xdm : XmodemServer) (msTime : BitVec 64) :
    (xdm.process msTime).2.lastEventTime = xdm.lastEventTime ∨
      (xdm.process msTime).2.lastEventTime = nonzero msTime := by
  rw [process]
  split_ifs
  · exact .inl rfl
  · dsimp only
    split_ifs
    · exact .inr rfl
    · exact check_lastEventTime xdm (nonzero msTime)

/-- A byte leaves the clock as it is. -/
theorem rxByte_lastEventTime {xdm xdm' : XmodemServer} {byte : Byte} (h : xdm.rxByte byte = some xdm') :
    xdm'.lastEventTime = xdm.lastEventTime := by
  rw [rxByte] at h
  split at h
  · obtain rfl := Option.some.inj h
    simp only [rxStart, apply_ite XmodemServer.lastEventTime, txByte, ite_self]
  · obtain rfl := Option.some.inj h
    simp only [rxStart, apply_ite XmodemServer.lastEventTime, txByte, ite_self]
  · obtain rfl := Option.some.inj h
    simp only [rxBlockNum, rxRestart, apply_ite XmodemServer.lastEventTime, ite_self]
  · obtain rfl := Option.some.inj h
    simp only [rxBlockNeg, rxRestart, apply_ite XmodemServer.lastEventTime, ite_self]
  · rw [rxData] at h
    split_ifs at h
    obtain rfl := Option.some.inj h
    simp only [apply_ite XmodemServer.lastEventTime, ite_self]
  · obtain rfl := Option.some.inj h
    rfl
  · rw [rxCrc1] at h
    split_ifs at h
    obtain rfl := Option.some.inj h
    simp only [apply_ite XmodemServer.lastEventTime, txByte, ite_self]
  all_goals
    obtain rfl := Option.some.inj h
    rfl

/-- Calls that all come at one time are not late. -/
theorem steps_onTime_of_const (msTime : BitVec 64) {ops : List Op}
    (hops : ∀ t, .process t ∈ ops → t = msTime)
    (hlast : s.server.lastEventTime = 0 ∨ s.server.lastEventTime = nonzero msTime) :
    Steps Session.step OnTime s ops := by
  induction ops generalizing s with
  | nil => trivial
  | cons op ops ih =>
    have hrest : ∀ t, .process t ∈ ops → t = msTime := fun t ht => hops t (List.mem_cons_of_mem op ht)
    cases op with
    | rxByte byte =>
      refine ⟨trivial, fun s' hs' => ih hrest ?_⟩
      obtain ⟨server, hserver, rfl⟩ := Option.map_eq_some_iff.mp hs'
      dsimp only
      rw [rxByte_lastEventTime hserver]
      exact hlast
    | process t =>
      obtain rfl : t = msTime := hops t List.mem_cons_self
      constructor
      · rcases hlast with hzero | heq
        · exact .inr (.inl hzero)
        · refine .inr (.inr ?_)
          rw [heq, BitVec.sub_self]
          decide
      · intro s' hs'
        rcases hcall : s.server.process t with ⟨packet, server⟩
        have hclock := process_lastEventTime s.server t
        rw [Session.step, hcall] at hs'
        rw [hcall] at hclock
        obtain rfl := Option.some.inj hs'
        apply ih hrest
        rcases hclock with heq | heq
        · exact heq ▸ hlast
        · exact .inr heq

/-- The packets with their numbers, from `n` on. -/
def numbered (n : ℕ) (packets : List (List Byte)) : List (List Byte × BitVec 32) :=
  (packets.zipIdx n).map fun (data, i) => (data, BitVec.ofNat 32 i)

/-- A transfer from the packet `n` on. -/
theorem Between.sends {packets : List (List Byte)} {answers : List Byte} {ops : List Op} {more : ℕ}
    (hsends : Sends n packets more answers ops) (h : s.Between n errors) (herrors : errors + more < 10)
    (htime : Steps Session.step OnTime s ops) :
    ∃ s', run Session.step s ops = some s' ∧ s'.server.state = .successful ∧
      s'.taken = s.taken ++ numbered n packets ∧ s'.answers = s.answers ++ answers := by
  induction hsends generalizing s errors with
  | eot hbytes =>
    obtain ⟨s', hrun, hstate, htaken, hanswers⟩ := h.eot herrors hbytes htime
    exact ⟨s', hrun, hstate, htaken.trans (List.append_nil _).symm, hanswers⟩
  | @good n more data packets answers ops ops' msTime hsize hbytes rest ih =>
    rw [← List.singleton_append, ← List.append_assoc] at htime
    obtain ⟨hfirst, hrest⟩ := htime.of_append
    obtain ⟨s', hrun, hbetween, htaken, hanswers⟩ := h.good (by omega) hsize hbytes hfirst
    obtain ⟨s'', hrun', hstate, htaken', hanswers'⟩ := ih hbetween herrors (hrest s' hrun)
    refine ⟨s'', ?_, hstate, ?_, ?_⟩
    · rw [← List.singleton_append, ← List.append_assoc, run_append, hrun]
      exact hrun'
    · rw [htaken', htaken, List.append_assoc]
      rfl
    · rw [hanswers', hanswers, List.append_assoc]
      rfl
  | @damaged n more data data' hi lo packets answers ops ops' again hsize hdamaged hbytes rest ih =>
    obtain ⟨hfirst, hrest⟩ := htime.of_append
    obtain ⟨s', hrun, hbetween, htaken, hanswers⟩ := h.damaged (by omega) again hsize hdamaged hbytes hfirst
    obtain ⟨s'', hrun', hstate, htaken', hanswers'⟩ := ih hbetween (by omega) (hrest s' hrun)
    refine ⟨s'', ?_, hstate, ?_, ?_⟩
    · rw [run_append, hrun]
      exact hrun'
    · rw [htaken', htaken]
    · rw [hanswers', hanswers, List.append_assoc]
      rfl
  | @again n more data packets answers ops ops' hsize hbytes rest ih =>
    obtain ⟨hfirst, hrest⟩ := htime.of_append
    obtain ⟨s', hrun, hbetween, htaken, hanswers⟩ := h.again (by omega) hsize hbytes hfirst
    obtain ⟨s'', hrun', hstate, htaken', hanswers'⟩ := ih hbetween herrors (hrest s' hrun)
    refine ⟨s'', ?_, hstate, ?_, ?_⟩
    · rw [run_append, hrun]
      exact hrun'
    · rw [htaken', htaken]
    · rw [hanswers', hanswers]

end Session

/-- **A transfer delivers the packets.** For all packets of 128 or 1024 bytes, fewer than ten damaged frames and any
number of frames of packets that were taken before, in any order, and calls with the time between any two bytes none of
which is late: the transfer is successful, every packet is taken once, in order and with its number, and the answers
are `NACK` for each damaged frame, `ACK` for each new packet and for the end, and nothing for the others. -/
theorem xmodem_transfer {packets : List (List Byte)} {errors : ℕ} {answers : List Byte} {ops : List Op}
    (h : Sends 0 packets errors answers ops) (herrors : errors < 10)
    (htime : Steps Session.step Session.OnTime .initial ops) :
    ∃ s, run Session.step .initial ops = some s ∧ s.server.state = .successful ∧
      s.taken = Session.numbered 0 packets ∧ s.answers = answers := by
  obtain ⟨s, hrun, hstate, htaken, hanswers⟩ :=
    Session.between_initial.sends h (by rwa [Nat.zero_add]) htime
  exact ⟨s, hrun, hstate, htaken, hanswers⟩

theorem odd_bitsOf_zeros (n : ℕ) : Crc.odd (bitsOf (List.replicate n 0)) = false := by
  induction n with
  | zero => rfl
  | succ n ih =>
    rw [List.replicate_succ, bitsOf, List.flatMap_cons, Crc.odd_append, ← bitsOf, ih]
    decide

theorem crcOf_zeros (n : ℕ) : crcOf (List.replicate n 0) = 0 := by
  have hzero : xmodemServerCrc 0 0 = 0 := by decide
  induction n with
  | zero => rfl
  | succ n ih =>
    rw [List.replicate_succ, crcOf, List.foldl_cons, hzero]
    exact ih

/-- A transfer of a packet of zeros, whose first frame is damaged, with all calls at one time. -/
theorem xmodem_transfer_zeros :
    let data := List.replicate 128 (0 : Byte)
    let ops := (rxPacket 1 (1 :: List.replicate 127 0) [0, 0]).map Op.rxByte ++
      ((rxPacket 1 data [0, 0]).map Op.rxByte ++ .process 5 :: [.rxByte eot])
    ∃ s, run Session.step .initial ops = some s ∧ s.server.state = .successful ∧ s.taken = [(data, 0)] ∧
      s.answers = [nack, ack, ack] := by
  intro data ops
  have hcheck : checkBytes (crcOf data) = [0, 0] := by
    rw [crcOf_zeros]
    rfl
  have hdamaged : Damaged (data ++ checkBytes (crcOf data)) (1 :: List.replicate 127 0 ++ [0, 0]) := by
    rw [hcheck]
    refine ⟨rfl, .inr ?_⟩
    rw [Crc.odd_zipWith (by rw [length_bitsOf, length_bitsOf]; rfl), show data ++ [0, 0] = List.replicate 130 0 from rfl,
      show 1 :: List.replicate 127 0 ++ [0, 0] = 1 :: List.replicate 129 (0 : Byte) from rfl, odd_bitsOf_zeros, bitsOf,
      List.flatMap_cons, Crc.odd_append, ← bitsOf, odd_bitsOf_zeros]
    decide
  have hbytes : ∀ bytes : List Byte, bytesOf (bytes.map Op.rxByte) = bytes := by
    intro bytes
    rw [bytesOf, List.filterMap_map]
    exact List.filterMap_some
  have hsends : Sends 0 [data] 1 [nack, ack, ack] ops :=
    .damaged false (.inl rfl) hdamaged (hbytes _)
      (.good 5 (.inl rfl) ((hbytes _).trans (by rw [hcheck]; rfl)) (.eot (hbytes [eot])))
  have htimes : ∀ t, .process t ∈ ops → t = 5 := by
    intro t ht
    simpa [ops] using ht
  exact xmodem_transfer hsends (by decide) (Session.steps_onTime_of_const 5 htimes (.inl rfl))

end I80k.Xmodem

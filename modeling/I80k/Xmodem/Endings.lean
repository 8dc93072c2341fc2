import I80k.Xmodem.Transfer

/-!
# How a transfer ends

A transfer that has ended does not begin again: no byte and no call changes anything.

If the line falls silent, the server gives up with the eleventh call that comes more than a second after the one
before; but for as long as nothing has been received, it asks the sender to begin, and never gives up.

A server that has lost the header of a frame takes the bytes of its data for headers. If one of them is `EOT` before one
of them is `SOH` or `STX`, the transfer ends, and it is successful: what would have come is not missed.

## Main results

* `Session.run_of_isDone`: a transfer that has ended
* `xmodem_silence`: a silent line
* `xmodem_lost_header`: a header that is lost
-/

namespace I80k.Xmodem

open StepSystem XmodemServer

namespace Session

variable {s : Session}

/-! ## Transfers that have ended -/

/-- **A transfer that has ended** stays as it is. -/
theorem run_of_isDone (hdone : s.server.IsDone) (ops : List Op) :
    run Session.step s ops = some { s with received := s.received ++ bytesOf ops } := by
  induction ops generalizing s with
  | nil =>
    rw [show bytesOf [] = [] from rfl, List.append_nil]
    rfl
  | cons op ops ih =>
    rw [run_cons]
    cases op with
    | rxByte byte =>
      have hbyte : s.server.rxByte byte = some s.server := by
        rw [XmodemServer.rxByte]
        rcases hdone with heq | heq
        · rw [heq]
        · rw [heq]
      have hstep : s.step (.rxByte byte) = some { s with received := s.received ++ [byte] } := by
        rw [Session.step, hbyte]
        rfl
      have hdone' : ({ s with received := s.received ++ [byte] } : Session).server.IsDone := hdone
      rw [hstep, Option.bind_some, ih hdone']
      dsimp only
      rw [List.append_assoc]
      rfl
    | process msTime =>
      have hcall : s.server.process msTime = (none, s.server) := if_pos hdone
      have hstep : s.step (.process msTime) = some s := by
        rw [Session.step, hcall]
        simp
      rw [hstep, Option.bind_some, ih hdone]
      rfl

end Session

/-! ## Silence -/

namespace XmodemServer

variable {xdm : XmodemServer}

theorem rxStart_eq_of_start {byte : Byte} (h : (xdm.rxStart byte).state = .start) : xdm.rxStart byte = xdm := by
  rw [rxStart] at h ⊢
  split_ifs at h ⊢
  · simp [txByte] at h
  · rfl

theorem rxRestart_ne_start (byte : Byte) : (xdm.rxRestart byte).state ≠ .start := by
  rw [rxRestart]
  split_ifs
  · simp
  · simp

/-- A byte does not lead back to the start. -/
theorem eq_of_rxByte_start {xdm' : XmodemServer} {byte : Byte} (h : xdm.rxByte byte = some xdm')
    (hstate : xdm'.state = .start) : xdm' = xdm := by
  rw [XmodemServer.rxByte] at h
  split at h
  · obtain rfl := Option.some.inj h
    exact rxStart_eq_of_start hstate
  · obtain rfl := Option.some.inj h
    exact rxStart_eq_of_start hstate
  · obtain rfl := Option.some.inj h
    rw [rxBlockNum] at hstate
    split_ifs at hstate
    exact absurd hstate (rxRestart_ne_start byte)
  · obtain rfl := Option.some.inj h
    rw [rxBlockNeg] at hstate
    split_ifs at hstate
    · exact absurd hstate (rxRestart_ne_start byte)
    · exact absurd hstate (rxRestart_ne_start byte)
  · rename_i hdata
    rw [rxData] at h
    split_ifs at h
    obtain rfl := Option.some.inj h
    dsimp only at hstate
    split_ifs at hstate
    exact absurd (hdata.symm.trans hstate) (by simp)
  · obtain rfl := Option.some.inj h
    cases hstate
  · rw [rxCrc1] at h
    split_ifs at h
    obtain rfl := Option.some.inj h
    dsimp only at hstate
    split_ifs at hstate
    simp [txByte] at hstate
  all_goals
    obtain rfl := Option.some.inj h
    rfl

/-- A call at the start asks the sender to begin, or does nothing. -/
theorem process_start (hstate : xdm.state = .start) (herrors : xdm.errorCount = 0) (msTime : BitVec 64) :
    (xdm.process msTime).1 = none ∧ (xdm.process msTime).2.quiet = xdm.quiet := by
  have hfew : xdm.errorCount < maxErrors := by
    rw [herrors]
    decide
  have hready : xdm.quiet.state ≠ .processPacket := by
    rw [show xdm.quiet.state = .start from hstate]
    simp
  have honTime : xdm.OnTime msTime := .inl hstate
  have hpoll := process_onTime honTime hfew
  rw [poll_of_ne hready] at hpoll
  exact Prod.mk.inj hpoll

/-- Nor does a call lead back to the start. -/
theorem process_ne_start (hstate : xdm.state ≠ .start) (msTime : BitVec 64) :
    (xdm.process msTime).2.state ≠ .start := by
  rcases process_cases xdm msTime with ⟨xdm', hcall, hsame⟩ | ⟨-, xdm', -, -, hcall⟩
  · rw [hcall]
    rcases hsame.state with heq | heq | heq
    · rwa [heq]
    · simp [heq]
    · simp [heq]
  · rw [hcall]
    simp [takePacket, txByte]

/-- The timer is running at a time, and has not run out. -/
structure Waiting (xdm : XmodemServer) (msTime : BitVec 64) : Prop where
  state : xdm.state ≠ .start
  errorCount : xdm.errorCount < maxErrors
  clock : xdm.lastEventTime ≠ 0
  recent : msTime - xdm.lastEventTime ≤ packetTimeout

theorem lastEventTime_initTimer {msTime : BitVec 64} (htime : msTime ≠ 0) :
    (xdm.initTimer msTime).lastEventTime ≠ 0 := by
  rw [initTimer]
  split_ifs with hzero
  · exact htime
  · exact hzero

theorem state_initTimer (msTime : BitVec 64) : (xdm.initTimer msTime).state = xdm.state :=
  state_eq_of_quiet (quiet_initTimer msTime)

/-- The checks of a call that does not come at the start. -/
theorem check_of_ne_start (hstate : xdm.state ≠ .start) (msTime : BitVec 64) :
    xdm.check msTime = ((xdm.initTimer msTime).checkTimeout msTime).checkErrors msTime := by
  have hask : (xdm.initTimer msTime).askAgain msTime = xdm.initTimer msTime :=
    if_neg fun h => hstate ((state_initTimer msTime).symm.trans h.1)
  rw [check, hask]

/-- The timer does not run out at the time that it is set to. -/
theorem waiting_checkTimeout (hstate : xdm.state ≠ .start) {msTime : BitVec 64} (htime : msTime ≠ 0) :
    ((xdm.initTimer msTime).checkTimeout msTime).state ≠ .start ∧
      ((xdm.initTimer msTime).checkTimeout msTime).lastEventTime ≠ 0 ∧
      msTime - ((xdm.initTimer msTime).checkTimeout msTime).lastEventTime ≤ packetTimeout := by
  rw [checkTimeout]
  split_ifs with hlate
  · refine ⟨by simp [txByte], htime, ?_⟩
    change msTime - msTime ≤ packetTimeout
    rw [BitVec.sub_self]
    decide
  · rw [state_initTimer]
    exact ⟨hstate, lastEventTime_initTimer htime, BitVec.not_lt.mp hlate⟩

/-- A call behind whose timer there have been too many errors, or not. -/
theorem process_of_ne_start (hstate : xdm.state ≠ .start) {msTime : BitVec 64} (htime : msTime ≠ 0)
    (hdone : ¬ xdm.IsDone) :
    (xdm.process msTime).2.IsDone ∨
      ((xdm.initTimer msTime).checkTimeout msTime).errorCount < maxErrors ∧
        ((xdm.process msTime).2 = (xdm.initTimer msTime).checkTimeout msTime ∨
          (xdm.process msTime).2 = (((xdm.initTimer msTime).checkTimeout msTime).takePacket msTime).2) := by
  have hnonzero : nonzero msTime = msTime := if_neg htime
  rw [process, hnonzero, if_neg hdone]
  dsimp only
  rw [check_of_ne_start hstate, checkErrors]
  by_cases herrors : maxErrors ≤ ((xdm.initTimer msTime).checkTimeout msTime).errorCount
  · rw [if_pos herrors, if_neg (by simp [txByte])]
    exact .inl (.inr rfl)
  · rw [if_neg herrors]
    refine .inr ⟨BitVec.not_le.mp herrors, ?_⟩
    split_ifs
    · exact .inr rfl
    · exact .inl rfl

/-- **A call** that does not come at the start ends the transfer, or the timer is running behind it. -/
theorem waiting_process (hstate : xdm.state ≠ .start) {msTime : BitVec 64} (htime : msTime ≠ 0) :
    (xdm.process msTime).2.IsDone ∨ (xdm.process msTime).2.Waiting msTime := by
  by_cases hdone : xdm.IsDone
  · rw [process, if_pos hdone]
    exact .inl hdone
  obtain ⟨hne, hclock, hrecent⟩ := waiting_checkTimeout hstate htime
  rcases process_of_ne_start hstate htime hdone with hend | ⟨hfew, heq | heq⟩
  · exact .inl hend
  · rw [heq]
    exact .inr ⟨hne, hfew, hclock, hrecent⟩
  · rw [heq]
    refine .inr ⟨by simp [takePacket, txByte], hfew, htime, ?_⟩
    change msTime - msTime ≤ packetTimeout
    rw [BitVec.sub_self]
    decide

/-- **A call that is late** ends the transfer, or counts as an error. -/
theorem errorCount_process_late {msTime msTime' : BitVec 64} (h : xdm.Waiting msTime) (htime : msTime' ≠ 0)
    (hlate : packetTimeout < msTime' - xdm.lastEventTime) :
    (xdm.process msTime').2.IsDone ∨ (xdm.process msTime').2.errorCount = xdm.errorCount + 1 := by
  by_cases hdone : xdm.IsDone
  · rw [process, if_pos hdone]
    exact .inl hdone
  have htimer : xdm.initTimer msTime' = xdm := if_neg h.clock
  have hcount : ((xdm.initTimer msTime').checkTimeout msTime').errorCount = xdm.errorCount + 1 := by
    rw [htimer, checkTimeout, if_pos hlate]
    rfl
  rcases process_of_ne_start h.state htime hdone with hend | ⟨-, heq | heq⟩
  · exact .inl hend
  · exact .inr (heq ▸ hcount)
  · exact .inr (heq ▸ hcount)

/-- A call more than a second after one behind which the timer was running. -/
theorem Waiting.late {t t' : ℕ} (h : xdm.Waiting (BitVec.ofNat 64 t)) (hlater : t + 1000 < t') (hlt : t' < 2 ^ 63) :
    packetTimeout < BitVec.ofNat 64 t' - xdm.lastEventTime := by
  have hrecent := h.recent
  rw [packetTimeout] at hrecent ⊢
  bv_omega

end XmodemServer

namespace Session

variable {s : Session}

/-- The server is called with these times. -/
def calls (times : List ℕ) : List Op := times.map fun t => .process (BitVec.ofNat 64 t)

theorem step_process (msTime : BitVec 64) :
    ∃ s', s.step (.process msTime) = some s' ∧ s'.server = (s.server.process msTime).2 ∧
      s'.taken = s.taken ++ (s.server.process msTime).1.toList := by
  rcases hcall : s.server.process msTime with ⟨packet, server⟩
  exact ⟨{ s with server, taken := s.taken ++ packet.toList }, by rw [Session.step, hcall], rfl, rfl⟩

/-- Calls that are late, behind one that the timer is running behind. -/
theorem run_late {times : List ℕ} {t : ℕ} (h : s.server.IsDone ∨ s.server.Waiting (BitVec.ofNat 64 t))
    (hchain : List.IsChain (fun t t' => t + 1000 < t') (t :: times)) (hlt : ∀ t' ∈ times, t' < 2 ^ 63) :
    ∃ s', run Session.step s (calls times) = some s' ∧
      (s'.server.IsDone ∨ s.server.errorCount.toNat + times.length < 10) := by
  induction times generalizing s t with
  | nil => exact ⟨s, rfl, h.imp_right fun h => h.errorCount⟩
  | cons t' times ih =>
    rw [List.isChain_cons_cons] at hchain
    have hlt' := hlt t' List.mem_cons_self
    have hrest : ∀ t ∈ times, t < 2 ^ 63 := fun t ht => hlt t (List.mem_cons_of_mem t' ht)
    have htime : BitVec.ofNat 64 t' ≠ 0 := by
      intro hzero
      bv_omega
    rcases h with hdone | hwaiting
    · exact ⟨_, run_of_isDone hdone _, .inl hdone⟩
    · obtain ⟨s', hstep, hserver, -⟩ := step_process (s := s) (BitVec.ofNat 64 t')
      have hnext := waiting_process hwaiting.state htime
      have hcount := errorCount_process_late hwaiting htime (hwaiting.late hchain.1 hlt')
      rw [← hserver] at hnext hcount
      obtain ⟨s'', hrun, hend⟩ := ih hnext hchain.2 hrest
      refine ⟨s'', by rw [calls, List.map_cons, run_cons, hstep]; exact hrun, ?_⟩
      rcases hcount with hdone | hcount
      · -- nothing happens any more
        rw [run_of_isDone hdone] at hrun
        obtain rfl := Option.some.inj hrun
        exact .inl hdone
      · refine hend.imp_right fun hfew => ?_
        have herrors : s.server.errorCount.toNat < 10 := hwaiting.errorCount
        have hone : (s.server.errorCount + 1).toNat = s.server.errorCount.toNat + 1 := by bv_omega
        rw [hcount, hone] at hfew
        rw [List.length_cons]
        omega

/-- At the start there have been no errors. -/
theorem errorCount_start {ops : List Op} (hrun : run Session.step .initial ops = some s)
    (hstate : s.server.state = .start) : s.server.errorCount = 0 := by
  have hinv : s.server.state = .start → s.server.errorCount = 0 := by
    refine run_invariant Session.step (P := fun s => s.server.state = .start → s.server.errorCount = 0) ?_
      (fun _ => rfl) hrun
    intro s op s' h hstep hstart
    cases op with
    | rxByte byte =>
      obtain ⟨server, hserver, rfl⟩ := Option.map_eq_some_iff.mp hstep
      obtain rfl := eq_of_rxByte_start hserver hstart
      exact h hstart
    | process msTime =>
      obtain ⟨s'', hstep', hserver, -⟩ := step_process (s := s) msTime
      obtain rfl : s'' = s' := Option.some.inj (hstep'.symm.trans hstep)
      by_cases hold : s.server.state = .start
      · rw [hserver]
        exact (errorCount_eq_of_quiet (process_start hold (h hold) msTime).2).trans (h hold)
      · rw [hserver] at hstart
        exact absurd hstart (process_ne_start hold msTime)
  exact hinv hstate

/-- Calls at the start. -/
theorem run_calls_start (hstate : s.server.state = .start) (herrors : s.server.errorCount = 0) (times : List ℕ) :
    ∃ s', run Session.step s (calls times) = some s' ∧ s'.server.quiet = s.server.quiet ∧ s'.taken = s.taken := by
  induction times generalizing s with
  | nil => exact ⟨s, rfl, rfl, rfl⟩
  | cons t times ih =>
    obtain ⟨s', hstep, hserver, htaken⟩ := step_process (s := s) (BitVec.ofNat 64 t)
    obtain ⟨hnone, hquiet⟩ := process_start hstate herrors (BitVec.ofNat 64 t)
    rw [← hserver] at hquiet
    obtain ⟨s'', hrun, hquiet', htaken'⟩ :=
      ih ((state_eq_of_quiet hquiet).trans hstate) ((errorCount_eq_of_quiet hquiet).trans herrors)
    refine ⟨s'', by rw [calls, List.map_cons, run_cons, hstep]; exact hrun, hquiet'.trans hquiet, ?_⟩
    rw [htaken', htaken, hnone, Option.toList_none, List.append_nil]

end Session

/-- **A silent line.** In every state that the server gets into: if it is only called with the time from then on, more
than a second after the call before, it has given up with the eleventh call, if not before. But if it has not yet
received the first byte of a packet, it asks the sender to begin, and nothing else happens, however often it is called.
-/
theorem xmodem_silence {ops : List Op} {s : Session} (hrun : run Session.step .initial ops = some s)
    {times : List ℕ} (hchain : List.IsChain (fun t t' => t + 1000 < t') times)
    (htimes : ∀ t ∈ times, 0 < t ∧ t < 2 ^ 63) :
    ∃ s', run Session.step s (Session.calls times) = some s' ∧
      (s.server.state ≠ .start → 11 ≤ times.length → s'.server.IsDone) ∧
      (s.server.state = .start → s'.server.quiet = s.server.quiet ∧ s'.taken = s.taken) := by
  by_cases hstate : s.server.state = .start
  · obtain ⟨s', hcalls, hsame⟩ := Session.run_calls_start hstate (Session.errorCount_start hrun hstate) times
    exact ⟨s', hcalls, fun hne => absurd hstate hne, fun _ => hsame⟩
  cases times with
  | nil => exact ⟨s, rfl, fun _ hlen => absurd hlen (by simp), fun h => absurd h hstate⟩
  | cons t times =>
    have htime : BitVec.ofNat 64 t ≠ 0 := by
      obtain ⟨hpos, hlt⟩ := htimes t List.mem_cons_self
      intro hzero
      bv_omega
    obtain ⟨s', hstep, hserver, -⟩ := Session.step_process (s := s) (BitVec.ofNat 64 t)
    have hfirst := waiting_process hstate htime
    rw [← hserver] at hfirst
    obtain ⟨s'', hlate, hend⟩ :=
      Session.run_late hfirst hchain fun t' ht' => (htimes t' (List.mem_cons_of_mem t ht')).2
    refine ⟨s'', by rw [Session.calls, List.map_cons, run_cons, hstep]; exact hlate, fun _ hlen => ?_,
      fun h => absurd h hstate⟩
    rw [List.length_cons] at hlen
    exact hend.resolve_right (by omega)

/-- Silence behind the byte that begins the first packet. -/
theorem xmodem_silence_soh :
    ∃ s s', run Session.step .initial [.rxByte soh] = some s ∧
      run Session.step s (Session.calls ((List.range 11).map fun i => 2000 * (i + 1))) = some s' ∧
      s'.server.IsDone := by
  let s : Session := { Session.initial with server := Session.initial.server.rxStart soh, received := [soh] }
  have hrun : run Session.step .initial [.rxByte soh] = some s := rfl
  have hchain : List.IsChain (fun t t' => t + 1000 < t') ((List.range 11).map fun i => 2000 * (i + 1)) := by decide
  obtain ⟨s', hcalls, hdone, -⟩ := xmodem_silence hrun hchain (by decide)
  exact ⟨s, s', hrun, hcalls, hdone (by decide) (by decide)⟩

/-! ## Headers that are lost -/

namespace Session

variable {s : Session}

theorem step_rxByte {server : XmodemServer} {byte : Byte} (h : s.server.rxByte byte = some server) :
    s.step (.rxByte byte) = some { s with server, received := s.received ++ [byte] } := by
  rw [Session.step, h, Option.map_some]

/-- A byte between packets. -/
theorem rxByte_skipped {xdm : XmodemServer} (hstate : xdm.state = .soh) {byte : Byte}
    (hskipped : ¬ Begins byte ∧ byte ≠ eot) : xdm.rxByte byte = some xdm := by
  have hbegins := not_or.mp hskipped.1
  rw [XmodemServer.rxByte, hstate]
  change some (xdm.rxStart byte) = some xdm
  rw [rxStart, if_neg hbegins.1, if_neg hbegins.2, if_neg hskipped.2]

/-- Bytes between packets, and the end of the transfer. -/
theorem run_skipped (hstate : s.server.state = .soh) {skipped : List Byte}
    (hskipped : ∀ byte ∈ skipped, ¬ Begins byte ∧ byte ≠ eot) :
    ∃ s', run Session.step s ((skipped ++ [eot]).map .rxByte) = some s' ∧ s'.server.state = .successful ∧
      s'.taken = s.taken := by
  induction skipped generalizing s with
  | nil =>
    have heot : s.server.rxByte eot = some (txByte { s.server with state := .successful } ack) := by
      rw [XmodemServer.rxByte, hstate]
      rfl
    refine ⟨{ s with
      server := txByte { s.server with state := .successful } ack, received := s.received ++ [eot] }, ?_, rfl, rfl⟩
    rw [List.nil_append, List.map_singleton, run_cons, step_rxByte heot]
    rfl
  | cons byte skipped ih =>
    have hbyte := rxByte_skipped hstate (hskipped byte List.mem_cons_self)
    have hstate' : ({ s with received := s.received ++ [byte] } : Session).server.state = .soh := hstate
    obtain ⟨s', hrun, hend, htaken⟩ := ih hstate' fun b hb => hskipped b (List.mem_cons_of_mem byte hb)
    exact ⟨s', by rw [List.cons_append, List.map_cons, run_cons, step_rxByte hbyte]; exact hrun, hend, htaken⟩

end Session

/-- **A header that is lost.** If the number of a packet is damaged on the line, so that it is neither that of a packet
that could come nor a byte that begins one, and `EOT` is in what follows it before a byte that begins a packet: then the
transfer has ended, successfully. Whatever comes then, no packet is taken any more. -/
theorem xmodem_lost_header {s : Session} (hstate : s.server.state = .start ∨ s.server.state = .soh) {first num : Byte}
    (hfirst : Begins first) (hnum : num ≠ s.server.nextNum ∧ num ≠ s.server.lastNum ∧ ¬ Begins num)
    {skipped : List Byte} (hskipped : ∀ byte ∈ skipped, ¬ Begins byte ∧ byte ≠ eot) (ops : List Op) :
    ∃ s', run Session.step s ((first :: num :: (skipped ++ [eot])).map .rxByte ++ ops) = some s' ∧
      s'.server.state = .successful ∧ s'.taken = s.taken := by
  obtain ⟨size, hbegun⟩ : ∃ size, s.server.rxByte first =
      some { s.server with state := .blockNum, packetSize := size } := by
    rw [XmodemServer.rxByte]
    rcases hfirst with rfl | rfl
    · rcases hstate with heq | heq
      · exact ⟨128, by rw [heq]; rfl⟩
      · exact ⟨128, by rw [heq]; rfl⟩
    · rcases hstate with heq | heq
      · exact ⟨1024, by rw [heq]; rfl⟩
      · exact ⟨1024, by rw [heq]; rfl⟩
  let begun : XmodemServer := { s.server with state := .blockNum, packetSize := size }
  have hlost : begun.rxByte num = some { begun with state := .soh } := by
    have hrestart : begun.rxBlockNum num = begun.rxRestart num := (if_neg hnum.1).trans (if_neg hnum.2.1)
    exact congrArg some (hrestart.trans (if_neg hnum.2.2))
  have hheader : run Session.step s ([first, num].map .rxByte) = some { s with
      server := { begun with state := .soh }, received := s.received ++ [first] ++ [num] } := by
    rw [List.map_cons, run_cons, Session.step_rxByte hbegun, Option.bind_some, List.map_singleton, run_cons,
      Session.step_rxByte hlost]
    rfl
  let lost : Session := { s with
    server := { begun with state := .soh }, received := s.received ++ [first] ++ [num] }
  obtain ⟨s', hrun, hend, htaken⟩ := Session.run_skipped (show lost.server.state = .soh from rfl) hskipped
  refine ⟨{ s' with received := s'.received ++ bytesOf ops }, ?_, hend, htaken⟩
  rw [show first :: num :: (skipped ++ [eot]) = [first, num] ++ (skipped ++ [eot]) from rfl, List.map_append,
    List.append_assoc, run_append, hheader, Option.bind_some, run_append, hrun, Option.bind_some]
  exact Session.run_of_isDone (.inl hend) ops

/-- The number of the first packet is damaged, and its data begin with `EOT`. -/
theorem xmodem_lost_header_first :
    ∃ s', run Session.step .initial ([soh, 0x81, 0xFE, eot].map .rxByte ++ [.rxByte soh, .process 5]) = some s' ∧
      s'.server.state = .successful ∧ s'.taken = [] := by
  have hskipped : ∀ byte ∈ ([0xFE] : List Byte), ¬ Begins byte ∧ byte ≠ eot := by decide
  exact xmodem_lost_header (s := .initial) (.inl rfl) (.inl rfl) (by decide) hskipped [.rxByte soh, .process 5]

end I80k.Xmodem

import I80k.Kernel.Cf20Queue

/-!
# Submissions that are interrupted

A submission of the CompactFlash driver is not one step. A task tests whether `requests` is empty, sends its
command to the card if it is, and then goes to sleep on the list. The card may answer as soon as it has the
command: an interrupt that comes before the task is on the list finds nobody to serve, and `cf20_handler`
takes it for a spurious one.

Here the interrupts of the card come at any time after the command, and other tasks submit their requests in
between.

## Main definitions

* `Submitting`: where a task is inside of `cf20_read_block` or `cf20_write_block`
* `Cf20Tasks`: the driver, the card, and the tasks that submit requests
* `Cf20Tasks.NoneLost`: the request that the last command was sent for does not wait in vain
* `Cf20Tasks.Guarded`: the condition on a step

## Main results

* `Cf20Tasks.submit_alone`: a submission that is not interrupted is the one of `Cf20.cf20Block`
* `Cf20.raise_cf20Handler`: what an interrupt does to the list and to the card
* `cf20_none_lost`: no completion is lost along the runs whose steps are all guarded
-/

namespace I80k.Kernel

open StepSystem

/-- The `struct bio_request` of a request. -/
def Request.ioReq (r : Request) (state : BioState) : BioRequest := ⟨state, r.block, r.count, r.buf⟩

/-- What a task inside of `cf20_read_block` or `cf20_write_block` does next. -/
inductive Submitting
  /-- It sends the command: the list was empty. -/
  | send (r : Request)
  /-- `scheduler_sleep_on(&requests, io_req)`, with the state of the request. -/
  | sleep (r : Request) (state : BioState)

/-- The driver and the card, with the tasks that submit requests. -/
structure Cf20Tasks extends Cf20 where
  calls : TaskId → Option Submitting
  /-- The task whose request the last command was sent for, until that task begins another one. -/
  lastFor : Option TaskId

namespace Cf20Tasks

/-- What can happen: a task begins a submission, it goes on with it, or the card raises an interrupt. -/
inductive Op
  | submit (r : Request)
  | next (task : TaskId)
  | interrupt

/-- The test of the arguments. -/
def Accepted (r : Request) : Prop := ¬ (r.count = 0 ∨ 256 < r.count ∨ r.buf = 0)

instance : DecidablePred Accepted := fun _ => inferInstanceAs (Decidable (¬ _))

def setCall (s : Cf20Tasks) (task : TaskId) (call : Option Submitting) : Cf20Tasks :=
  { s with calls := Function.update s.calls task call }

/-- The beginning of a submission, up to the test of the list. -/
def submit (s : Cf20Tasks) (r : Request) : Cf20Tasks :=
  if Accepted r then
    { s with lastFor := if s.lastFor = some r.task then none else s.lastFor }.setCall r.task
      (some (if s.requests = [] then .send r else .sleep r r.dir.cmd))
  -- `ERR_INVAL`.
  else s

/-- The rest of it, a piece at a time. -/
def next (s : Cf20Tasks) (task : TaskId) : Submitting → Cf20Tasks
  | .send r =>
    { s with toCf20 := s.send (r.dir.send r.block r.count), lastFor := some task }.setCall task
      (some (.sleep r r.dir.sector))
  | .sleep r state =>
    { s with toCf20 := { s.toCf20 with
        requests := s.requests ++ [(task, r.ioReq state)]
        submitted := s.submitted ++ [r] } }.setCall task none

/-- The task whose request a command was just sent for by the handler: the one at the head of the list. -/
def sentFor (s : Cf20) : Option TaskId :=
  match s.trace.getLast? with
  | some (.command _) => s.requests.head?.map Prod.fst
  | _ => none

/-- The interrupt, and its handler. -/
def interrupt (s : Cf20Tasks) : Cf20Tasks :=
  let driver := s.raise.cf20Handler
  { s with toCf20 := driver, lastFor := (sentFor driver).or s.lastFor }

/-- One step. A task submits one request at a time, and the card raises the interrupts it has to raise. -/
def step (s : Cf20Tasks) : Op → Option Cf20Tasks
  | .submit r =>
    if r.task ∈ s.requests.map Prod.fst ∨ (s.calls r.task).isSome then none else some (s.submit r)
  | .next task => (s.calls task).map (s.next task)
  | .interrupt => if s.card.left = 0 then none else some s.interrupt

/-- After `cf20_probe`. -/
def initial : Cf20Tasks := ⟨Cf20.initial, fun _ => none, none⟩

/-- If the card has no interrupt left to raise, the request that the last command was sent for does not wait
on the list with sectors to come. -/
def NoneLost (s : Cf20Tasks) : Prop :=
  s.card.left = 0 → ∀ task, s.lastFor = some task → ∀ io, (task, io) ∈ s.requests → io.count = 0

/-- The task has sent its command, and is not on the list yet. -/
def Sent (s : Cf20Tasks) (task : TaskId) : Prop := ∃ r, s.calls task = some (.sleep r r.dir.sector)

/-- The step is neither an interrupt that finds an empty list while a task has sent its command, nor a command
that a task sends while the card has not raised all the interrupts of another one. -/
def Guarded (s : Cf20Tasks) : Op → Prop
  | .interrupt => s.requests = [] → ∀ task, ¬ s.Sent task
  | .next task => ∀ r, s.calls task = some (.send r) → s.card.left = 0
  | .submit _ => True

variable {s s' : Cf20Tasks} {task : TaskId} {r : Request}

theorem step_next {call : Submitting} (h : s.calls task = some call) :
    s.step (.next task) = some (s.next task call) :=
  Option.map_eq_some_iff.mpr ⟨call, h, rfl⟩

/-! ## Submissions that are not interrupted -/

/-- The pieces of a submission, one after the other, are the submission as one step. -/
theorem submit_alone (s : Cf20Tasks) (hr : Accepted r) :
    ∃ ops s', (∀ op ∈ ops, op = .next r.task) ∧ run step (s.submit r) ops = some s' ∧
      s'.toCf20 = (s.cf20Block r.dir r.task r.block r.count r.buf).2 := by
  have hr' : ¬ (r.count = 0 ∨ 256 < r.count ∨ r.buf = 0) := hr
  unfold Cf20.cf20Block
  rw [if_neg hr']
  by_cases hempty : s.requests = []
  · -- The command is sent, and the task goes to sleep.
    have hsend : (s.submit r).calls r.task = some (.send r) := by
      simp [submit, hr, hempty, setCall]
    have hsleep : ((s.submit r).next r.task (.send r)).calls r.task = some (.sleep r r.dir.sector) := by
      simp [next, setCall]
    refine ⟨[.next r.task, .next r.task], ((s.submit r).next r.task (.send r)).next r.task
      (.sleep r r.dir.sector), by simp, ?_, ?_⟩
    · rw [run_cons, step_next hsend, Option.bind_some, run_cons, step_next hsleep, Option.bind_some, run_nil]
    · rw [if_pos hempty]
      simp [next, setCall, submit, hr, Request.ioReq]
  · have hsleep : (s.submit r).calls r.task = some (.sleep r r.dir.cmd) := by
      simp [submit, hr, hempty, setCall]
    refine ⟨[.next r.task], (s.submit r).next r.task (.sleep r r.dir.cmd), by simp, ?_, ?_⟩
    · rw [run_cons, step_next hsleep, Option.bind_some, run_nil]
    · rw [if_neg hempty]
      simp [next, setCall, submit, hr, Request.ioReq]

end Cf20Tasks

/-! ## An interrupt -/

theorem BioState.send_iff {state : BioState} : state.Send ↔ ∃ dir : Direction, state = dir.cmd := by
  constructor
  · rintro (rfl | rfl)
    · exact ⟨.read, rfl⟩
    · exact ⟨.write, rfl⟩
  · rintro ⟨dir, rfl⟩
    cases dir <;> decide

theorem BioState.rwSector_iff {state : BioState} : state.RwSector ↔ ∃ dir : Direction, state = dir.sector := by
  constructor
  · rintro (rfl | rfl)
    · exact ⟨.read, rfl⟩
    · exact ⟨.write, rfl⟩
  · rintro ⟨dir, rfl⟩
    cases dir <;> decide

theorem BioState.Send.not_rwSector {state : BioState} (h : state.Send) : ¬ state.RwSector := by
  rcases h with rfl | rfl <;> decide

namespace Cf20

variable {s : Cf20}

/-- The card has an interrupt to raise for each sector of a command. -/
theorem left_send {dir : Direction} {block count : ℕ} (hpos : 0 < count) (hle : count ≤ 256) :
    (s.send (dir.send block count)).card.left = count := by
  show (dir.send block count).sectors = count
  cases dir with
  | read => exact sectors_sectorsCommand hpos hle
  | write => exact sectors_sectorsCommand hpos hle

theorem left_sectorLoop (dir : Direction) (n buf : ℕ) : (sectorLoop dir n buf s).card.left = s.card.left := by
  rw [sectorLoop_eq]

theorem requests_sendCommand (s : Cf20) (io : BioRequest) : (s.sendCommand io).requests = s.requests := by
  unfold sendCommand
  split_ifs <;> rfl

/-- What an interrupt does to the list and to the card. -/
inductive Interrupted (s s' : Cf20) : Prop
  /-- It is dropped. -/
  | spurious (h : s.requests = []) (h' : s'.requests = [])
  /-- The command of the first request is sent, or sent again. -/
  | again {task : TaskId} {io : BioRequest} {rest : List (TaskId × BioRequest)}
      (h : s.requests = (task, io) :: rest) (hstate : io.state.Send) (h' : s'.requests = s.requests)
      (hleft : s'.card.left = io.count)
  /-- A sector of the first request is moved, and there are more to come. -/
  | more {task : TaskId} {io : BioRequest} {rest : List (TaskId × BioRequest)}
      (h : s.requests = (task, io) :: rest) (hstate : io.state.RwSector) (hcount : 1 < io.count)
      (h' : s'.requests = (task, BioRequest.advance io) :: rest) (hleft : s'.card.left = s.card.left - 1)
  /-- The last sector is moved, and the command of the next request, if there is one, is sent. -/
  | done {task : TaskId} {io : BioRequest} {rest : List (TaskId × BioRequest)}
      (h : s.requests = (task, io) :: rest) (hstate : io.state.RwSector) (h' : s'.requests = rest)
      (hleft : ∀ next ∈ rest.head?, next.2.state.Send → s'.card.left = next.2.count)

/-- **The interrupt**, for requests whose sectors fit in a command. -/
theorem raise_cf20Handler (hcounts : ∀ e ∈ s.requests, 0 < e.2.count ∧ e.2.count ≤ 256)
    (hstates : ∀ e ∈ s.requests, e.2.state.Send ∨ e.2.state.RwSector) :
    Interrupted s s.raise.cf20Handler := by
  -- The queue is empty, its first request is to be sent, or a sector of it is ready.
  cases hlist : s.requests with
  | nil =>
    have hraise : s.raise.requests = [] := hlist
    refine .spurious hlist ?_
    simp [cf20Handler, hraise]
  | cons head rest =>
    obtain ⟨task, io⟩ := head
    have hraise : s.raise.requests = (task, io) :: rest := hlist
    obtain ⟨hpos, hle⟩ := hcounts (task, io) (by simp [hlist])
    rcases hstates (task, io) (by simp [hlist]) with hsend | hrw
    · obtain ⟨dir, hdir⟩ := BioState.send_iff.mp hsend
      rw [cf20Handler_again hraise hdir]
      exact .again hlist hsend rfl (left_send hpos hle)
    · obtain ⟨dir, hdir⟩ := BioState.rwSector_iff.mp hrw
      by_cases hone : io.count = 1
      · rw [cf20Handler_done hraise hdir hone]
        cases rest with
        | nil => exact .done hlist hrw rfl (by simp)
        | cons next rest =>
          -- The last sector: the next request is sent.
          refine .done hlist hrw (requests_sendCommand _ next.2) fun next' hnext hsend => ?_
          obtain rfl : next = next' := by simpa using hnext
          obtain ⟨dir', hdir'⟩ := BioState.send_iff.mp hsend
          obtain ⟨hpos', hle'⟩ := hcounts next (by simp [hlist])
          dsimp only
          rw [sendCommand_cmd hdir']
          exact left_send hpos' hle'
      · -- One of several sectors: the request stays in front.
        have hmore : 1 < io.count := lt_of_le_of_ne hpos (Ne.symm hone)
        have hleft : (sectorLoop dir sectorSz io.buf s.raise).card.left = s.card.left - 1 := by
          rw [left_sectorLoop]
          rfl
        rw [cf20Handler_more hraise hdir hmore hle]
        refine .more hlist hrw hmore rfl ?_
        dsimp only
        exact hleft

end Cf20

namespace Cf20Tasks

variable {s s' : Cf20Tasks} {task : TaskId} {r : Request}

/-! ## The invariant -/

/-- A task inside of a submission: one that waits behind others has no command, and one that sent its command
has interrupts to come, all of them as long as the list is empty. -/
def CallOk (s : Cf20Tasks) (task : TaskId) : Submitting → Prop
  | .send r => Accepted r
  | .sleep r state => Accepted r ∧ (state = r.dir.cmd ∧ s.lastFor ≠ some task ∨
      state = r.dir.sector ∧ 0 < s.card.left ∧ (s.requests = [] → s.card.left = r.count))

/-- The states that are reached by guarded steps. -/
structure Inv (s : Cf20Tasks) : Prop where
  counts : ∀ e ∈ s.requests, 0 < e.2.count ∧ e.2.count ≤ 256
  states : ∀ e ∈ s.requests, e.2.state.Send ∨ e.2.state.RwSector
  calls : ∀ task call, s.calls task = some call → s.CallOk task call ∧ task ∉ s.requests.map Prod.fst
  /-- One task at a time has sent its command, and the others wait behind it. -/
  unique : ∀ task other, s.Sent task → s.Sent other → task = other
  alone : ∀ task, s.Sent task → ∀ e ∈ s.requests, e.2.state.Send
  single : s.requests.Pairwise fun e e' => ¬ (e.2.state.RwSector ∧ e'.2.state.RwSector)
  /-- The card has an interrupt for each sector of the first request. -/
  head : ∀ e ∈ s.requests.head?, e.2.state.RwSector → s.card.left = e.2.count
  left : ∀ e ∈ s.requests, e.2.state.RwSector → 0 < s.card.left
  last : ∀ task, s.lastFor = some task → task ∈ s.requests.map Prod.fst → 0 < s.card.left

theorem inv_initial : initial.Inv := by
  have hsent : ∀ task, ¬ initial.Sent task := by
    rintro task ⟨r, h⟩
    cases h
  refine ⟨by simp [initial, Cf20.initial], by simp [initial, Cf20.initial], fun task call h => ?_,
    fun task _ h => absurd h (hsent task), fun task h => absurd h (hsent task), List.Pairwise.nil,
    by simp [initial, Cf20.initial], by simp [initial, Cf20.initial], by simp [initial]⟩
  cases h

/-- With no interrupt left, the request of the last command is not on the list. -/
theorem Inv.noneLost (h : s.Inv) : s.NoneLost := by
  intro hleft task hlast io hmem
  have hpos := h.last task hlast (List.mem_map_of_mem hmem)
  omega

theorem Accepted.count (h : Accepted r) : 0 < r.count ∧ r.count ≤ 256 := by
  unfold Accepted at h
  omega

theorem cmd_ne_sector (dir : Direction) : dir.cmd ≠ dir.sector := by
  cases dir <;> decide

theorem sent_congr (h : s'.calls task = s.calls task) : s'.Sent task ↔ s.Sent task := by
  unfold Sent
  rw [h]

/-- A task that has sent its command has interrupts to come. -/
theorem Inv.left_of_sent (h : s.Inv) (hsent : s.Sent task) : 0 < s.card.left := by
  obtain ⟨r, hc⟩ := hsent
  rcases (h.calls task _ hc).1.2 with ⟨hstate, -⟩ | ⟨-, hleft, -⟩
  · exact absurd hstate.symm (cmd_ne_sector r.dir)
  · exact hleft

/-- A call is still as it should be, if no command was sent for its task meanwhile, and the interrupts of a
command that its task has sent are still to come. -/
theorem CallOk.transfer {call : Submitting} (h : s.CallOk task call)
    (hlast : s'.lastFor = some task → s.lastFor = some task)
    (hsent : ∀ r, call = .sleep r r.dir.sector → 0 < s.card.left ∧ (s.requests = [] → s.card.left = r.count) →
      0 < s'.card.left ∧ (s'.requests = [] → s'.card.left = r.count)) :
    s'.CallOk task call := by
  cases call with
  | send r => exact h
  | sleep r state =>
    obtain ⟨hr, hcall⟩ := h
    refine ⟨hr, ?_⟩
    rcases hcall with ⟨hcmd, hnot⟩ | ⟨rfl, hleft⟩
    · exact Or.inl ⟨hcmd, fun ht => hnot (hlast ht)⟩
    · exact Or.inr ⟨rfl, hsent r rfl hleft⟩

/-- What the invariant says about the requests behind the first one. -/
theorem Inv.rest {e : TaskId × BioRequest} {rest : List (TaskId × BioRequest)} (h : s.Inv)
    (hlist : s.requests = e :: rest) :
    (∀ e' ∈ rest, 0 < e'.2.count ∧ e'.2.count ≤ 256) ∧ (∀ e' ∈ rest, e'.2.state.Send ∨ e'.2.state.RwSector) ∧
      (∀ e' ∈ rest, ¬ (e.2.state.RwSector ∧ e'.2.state.RwSector)) ∧
      rest.Pairwise fun e e' => ¬ (e.2.state.RwSector ∧ e'.2.state.RwSector) := by
  have hmem : ∀ e' ∈ rest, e' ∈ s.requests := fun e' he' => hlist ▸ List.mem_cons_of_mem _ he'
  have hsingle := h.single
  rw [hlist, List.pairwise_cons] at hsingle
  exact ⟨fun e' he' => h.counts e' (hmem e' he'), fun e' he' => h.states e' (hmem e' he'), hsingle⟩

/-! ## Submissions -/

/-- What the beginning of a submission does. -/
theorem submit_spec (hr : Accepted r) :
    (s.submit r).toCf20 = s.toCf20 ∧
      (s.submit r).calls r.task = some (if s.requests = [] then .send r else .sleep r r.dir.cmd) ∧
      (∀ task ≠ r.task, (s.submit r).calls task = s.calls task) ∧ (s.submit r).lastFor ≠ some r.task ∧
      ∀ task, (s.submit r).lastFor = some task → s.lastFor = some task := by
  unfold submit
  rw [if_pos hr]
  refine ⟨rfl, by simp [setCall], fun task hne => by simp [setCall, hne], ?_, fun task => ?_⟩
  · simp only [setCall]
    split_ifs with hlast
    · simp
    · exact hlast
  · simp only [setCall]
    split_ifs with hlast
    · simp
    · exact id

/-- A task that begins has not sent its command. -/
theorem sent_submit (hr : Accepted r) (h : (s.submit r).Sent task) : s.Sent task := by
  obtain ⟨-, hself, hother, -, -⟩ := submit_spec (s := s) hr
  by_cases htask : task = r.task
  · obtain ⟨r', hc⟩ := h
    rw [htask, hself] at hc
    split_ifs at hc
    · cases hc
    · obtain ⟨rfl, hstate⟩ := Submitting.sleep.inj (Option.some.inj hc)
      exact absurd hstate (cmd_ne_sector _)
  · exact (sent_congr (hother task htask)).mp h

theorem Inv.submit (h : s.Inv) (hnew : r.task ∉ s.requests.map Prod.fst) : (s.submit r).Inv := by
  by_cases hr : Accepted r
  swap
  · rw [Cf20Tasks.submit, if_neg hr]
    exact h
  obtain ⟨hdriver, hself, hother, hlast, hold⟩ := submit_spec (s := s) hr
  refine ⟨hdriver ▸ h.counts, hdriver ▸ h.states, fun t call hc => ?_,
    fun t u ht hu => h.unique t u (sent_submit hr ht) (sent_submit hr hu),
    fun t ht => hdriver ▸ h.alone t (sent_submit hr ht),
    hdriver ▸ h.single, hdriver ▸ h.head, hdriver ▸ h.left, fun t ht hmem => ?_⟩
  · -- The call of this task is new, and the others are as before.
    by_cases htask : t = r.task
    · subst htask
      rw [hself, Option.some.injEq] at hc
      subst hc
      refine ⟨?_, hdriver ▸ hnew⟩
      split_ifs
      · exact hr
      · exact ⟨hr, Or.inl ⟨rfl, hlast⟩⟩
    · rw [hother t htask] at hc
      obtain ⟨hok, hmem⟩ := h.calls t call hc
      exact ⟨hok.transfer (hold t) fun r' _ hsent => hdriver ▸ hsent, hdriver ▸ hmem⟩
  · rw [hdriver] at hmem ⊢
    exact h.last t (hold t ht) hmem

/-- The command is sent: nobody else has a sector to come, as the card has no interrupt left. -/
theorem Inv.next_send (h : s.Inv) (hcall : s.calls task = some (.send r)) (hidle : s.card.left = 0) :
    (s.next task (.send r)).Inv := by
  have hr : Accepted r := (h.calls task _ hcall).1
  obtain ⟨hpos, hle⟩ := hr.count
  have hleft : (s.next task (.send r)).card.left = r.count := Cf20.left_send hpos hle
  have hself : (s.next task (.send r)).calls task = some (.sleep r r.dir.sector) := Function.update_self ..
  have hother : ∀ t ≠ task, (s.next task (.send r)).calls t = s.calls t := fun t ht =>
    Function.update_of_ne ht _ _
  have hnone : ∀ t, ¬ s.Sent t := fun t ht => (h.left_of_sent ht).ne' hidle
  have hsent : ∀ t, (s.next task (.send r)).Sent t → t = task := by
    intro t ht
    by_contra htask
    exact hnone t ((sent_congr (hother t htask)).mp ht)
  have hwait : ∀ e ∈ s.requests, e.2.state.Send := fun e he =>
    (h.states e he).resolve_right fun hrw => (h.left e he hrw).ne' hidle
  refine ⟨h.counts, h.states, fun t call hc => ?_, fun t u ht hu => (hsent t ht).trans (hsent u hu).symm,
    fun _ _ => hwait, h.single, fun e he hrw => ?_, fun e he hrw => ?_, fun t _ _ => ?_⟩
  · by_cases htask : t = task
    · -- The card has all the interrupts of the command to raise.
      subst htask
      rw [hself, Option.some.injEq] at hc
      subst hc
      exact ⟨⟨hr, Or.inr ⟨rfl, hleft ▸ hpos, fun _ => hleft⟩⟩, (h.calls t _ hcall).2⟩
    · rw [hother t htask] at hc
      obtain ⟨hok, hmem⟩ := h.calls t call hc
      refine ⟨hok.transfer (fun hlast => absurd (Option.some.inj hlast).symm htask) fun r' hsleep _ => ?_, hmem⟩
      subst hsleep
      exact absurd ⟨r', hc⟩ (hnone t)
  · exact absurd hrw (hwait e (List.mem_of_mem_head? he)).not_rwSector
  · exact hleft ▸ hpos
  · exact hleft ▸ hpos

/-- The task is on the list. -/
theorem Inv.next_sleep {state : BioState} (h : s.Inv) (hcall : s.calls task = some (.sleep r state)) :
    (s.next task (.sleep r state)).Inv := by
  obtain ⟨⟨hr, hstate⟩, hmem⟩ := h.calls task _ hcall
  have hself : (s.next task (.sleep r state)).calls task = none := Function.update_self ..
  have hother : ∀ t ≠ task, (s.next task (.sleep r state)).calls t = s.calls t := fun t ht =>
    Function.update_of_ne ht _ _
  have hold : ∀ t, (s.next task (.sleep r state)).Sent t → t ≠ task ∧ s.Sent t := by
    intro t ht
    have htask : t ≠ task := by
      rintro rfl
      obtain ⟨r', hc⟩ := ht
      simp [hself] at hc
    exact ⟨htask, (sent_congr (hother t htask)).mp ht⟩
  -- If its command was sent, the others on the list wait behind it.
  have hsent : state.RwSector → s.Sent task ∧ 0 < s.card.left ∧ (s.requests = [] → s.card.left = r.count) := by
    intro hrw
    rcases hstate with ⟨rfl, -⟩ | ⟨rfl, hleft⟩
    · exact absurd hrw (BioState.send_iff.mpr ⟨r.dir, rfl⟩).not_rwSector
    · exact ⟨⟨r, hcall⟩, hleft⟩
  have hlist : (s.next task (.sleep r state)).requests = s.requests ++ [(task, r.ioReq state)] := rfl
  refine ⟨?_, ?_, fun t call hc => ?_, fun t u ht hu => ?_, fun t ht => ?_, ?_, fun e he hrw => ?_,
    fun e he hrw => ?_, fun t ht hmem' => ?_⟩
  · rw [hlist]
    simp only [List.forall_mem_append, List.forall_mem_singleton]
    exact ⟨h.counts, hr.count⟩
  · rw [hlist]
    simp only [List.forall_mem_append, List.forall_mem_singleton]
    refine ⟨h.states, ?_⟩
    rcases hstate with ⟨rfl, -⟩ | ⟨rfl, -⟩
    · exact Or.inl (BioState.send_iff.mpr ⟨r.dir, rfl⟩)
    · exact Or.inr (BioState.rwSector_iff.mpr ⟨r.dir, rfl⟩)
  · have htask : t ≠ task := by
      rintro rfl
      simp [hself] at hc
    rw [hother t htask] at hc
    obtain ⟨hok, hnot⟩ := h.calls t call hc
    constructor
    · refine hok.transfer id fun r' _ hleft => ⟨hleft.1, fun hempty => ?_⟩
      simp [hlist] at hempty
    · rw [hlist, List.map_append, List.mem_append, not_or]
      exact ⟨hnot, by simpa using htask⟩
  · exact h.unique t u (hold t ht).2 (hold u hu).2
  · obtain ⟨htask, hsentOld⟩ := hold t ht
    rw [hlist]
    simp only [List.forall_mem_append, List.forall_mem_singleton]
    refine ⟨h.alone t hsentOld, ?_⟩
    rcases hstate with ⟨rfl, -⟩ | ⟨rfl, -⟩
    · exact BioState.send_iff.mpr ⟨r.dir, rfl⟩
    · exact absurd (h.unique t task hsentOld ⟨r, hcall⟩) htask
  · -- Two requests with sectors to come: the other one would be on the list, where all wait behind this task.
    rw [hlist]
    refine List.pairwise_append.mpr ⟨h.single, List.pairwise_singleton _ _, fun e he e' he' => ?_⟩
    rintro ⟨hrw, hrw'⟩
    rw [List.mem_singleton.mp he'] at hrw'
    exact (h.alone task (hsent hrw').1 e he).not_rwSector hrw
  · -- On an empty list the task is the first one, with all its interrupts to come.
    rw [hlist] at he
    cases hreq : s.requests with
    | nil =>
      rw [hreq] at he
      obtain rfl : (task, r.ioReq state) = e := by simpa using he
      exact (hsent hrw).2.2 hreq
    | cons e' rest =>
      rw [hreq] at he
      exact h.head e (by simpa [hreq] using he) hrw
  · rw [hlist] at he
    rcases List.mem_append.mp he with he | he
    · exact h.left e he hrw
    · rw [List.mem_singleton.mp he] at hrw
      exact (hsent hrw).2.1
  · rw [hlist, List.map_append] at hmem'
    rcases List.mem_append.mp hmem' with hmem' | hmem'
    · exact h.last t ht hmem'
    · obtain rfl : t = task := by simpa using hmem'
      rcases hstate with ⟨-, hlast⟩ | ⟨-, hleft, -⟩
      · exact absurd ht hlast
      · exact hleft

/-! ## Interrupts -/

theorem sentFor_mem {d : Cf20} (h : sentFor d = some task) : task ∈ d.requests.map Prod.fst := by
  unfold sentFor at h
  split at h
  · obtain ⟨e, he, rfl⟩ := Option.map_eq_some_iff.mp h
    exact List.mem_map_of_mem (List.mem_of_mem_head? he)
  · cases h

/-- What the invariant needs of an interrupt: either nobody has sent a command, or the list stays as it
is; and the card has interrupts left as long as the list is not empty. -/
theorem Inv.interrupt_of (h : s.Inv) (hsub : s.interrupt.requests.map Prod.fst ⊆ s.requests.map Prod.fst)
    (hcounts : ∀ e ∈ s.interrupt.requests, 0 < e.2.count ∧ e.2.count ≤ 256)
    (hstates : ∀ e ∈ s.interrupt.requests, e.2.state.Send ∨ e.2.state.RwSector)
    (hsent : (∀ t, ¬ s.Sent t) ∨ s.interrupt.requests = s.requests ∧ (s.requests = [] → ∀ t, ¬ s.Sent t))
    (hsingle : s.interrupt.requests.Pairwise fun e e' => ¬ (e.2.state.RwSector ∧ e'.2.state.RwSector))
    (hhead : ∀ e ∈ s.interrupt.requests.head?, e.2.state.RwSector → s.interrupt.card.left = e.2.count)
    (hleft : s.interrupt.requests ≠ [] → 0 < s.interrupt.card.left) : s.interrupt.Inv := by
  have hsame : ∀ t, s.interrupt.Sent t ↔ s.Sent t := fun t => sent_congr rfl
  have hlast : ∀ t, s.interrupt.lastFor = some t → s.lastFor = some t ∨ t ∈ s.interrupt.requests.map Prod.fst := by
    intro t ht
    rcases Option.or_eq_some_iff.mp ht with hnew | ⟨-, hold⟩
    · exact Or.inr (sentFor_mem hnew)
    · exact Or.inl hold
  refine ⟨hcounts, hstates, fun t call hc => ?_, fun t u ht hu => h.unique t u ((hsame t).mp ht)
    ((hsame u).mp hu), fun t ht => ?_, hsingle, hhead, fun e he _ => hleft (List.ne_nil_of_mem he),
    fun t _ hmem => hleft ?_⟩
  · obtain ⟨hok, hnot⟩ := h.calls t call hc
    refine ⟨hok.transfer (fun ht => ?_) fun r' hsleep _ => ?_, fun hmem => hnot (hsub hmem)⟩
    · exact (hlast t ht).resolve_right fun hmem => hnot (hsub hmem)
    · -- The task has sent its command: the list is as it was, and not empty.
      have ht : s.Sent t := ⟨r', hsleep ▸ hc⟩
      rcases hsent with hnone | ⟨hlist, hempty⟩
      · exact absurd ht (hnone t)
      · have hne : s.interrupt.requests ≠ [] := fun hnil => hempty (hlist ▸ hnil) t ht
        exact ⟨hleft hne, fun hnil => absurd hnil hne⟩
  · rcases hsent with hnone | ⟨hlist, -⟩
    · exact absurd ((hsame t).mp ht) (hnone t)
    · rw [hlist]
      exact h.alone t ((hsame t).mp ht)
  · rintro hnil
    simp [hnil] at hmem

/-- While the first request has sectors to come, nobody has sent a command. -/
theorem Inv.not_sent {e : TaskId × BioRequest} (h : s.Inv) (he : e ∈ s.requests) (hrw : e.2.state.RwSector) :
    ∀ t, ¬ s.Sent t := fun t ht =>
  (h.alone t ht e he).not_rwSector hrw

/-- A sector of the first request, with more to come. -/
theorem Inv.interrupt_more {io : BioRequest} {rest : List (TaskId × BioRequest)} (h : s.Inv)
    (hlist : s.requests = (task, io) :: rest) (hstate : io.state.RwSector) (hcount : 1 < io.count)
    (hlist' : s.interrupt.requests = (task, Cf20.BioRequest.advance io) :: rest)
    (hleft : s.interrupt.card.left = s.card.left - 1) : s.interrupt.Inv := by
  have hmem : (task, io) ∈ s.requests := by simp [hlist]
  have hio : s.card.left = io.count := h.head (task, io) (by simp [hlist]) hstate
  have hle : io.count ≤ 256 := (h.counts _ hmem).2
  have hadvance : (Cf20.BioRequest.advance io).state = io.state := by
    rw [Cf20.BioRequest.advance, if_neg (by omega)]
  have hadvanced : (Cf20.BioRequest.advance io).count = io.count - 1 := rfl
  obtain ⟨hcounts, hstates, hfirst, hrest⟩ := h.rest hlist
  -- The list is the same but for the count of the first request, that goes down with the card's.
  refine h.interrupt_of ?_ ?_ ?_ (Or.inl (h.not_sent hmem hstate)) ?_ (fun e he _ => ?_) fun _ => ?_
  · rw [hlist', hlist]
    exact List.Subset.refl _
  · rw [hlist', List.forall_mem_cons]
    exact ⟨by simp only [hadvanced]; omega, hcounts⟩
  · rw [hlist', List.forall_mem_cons]
    exact ⟨hadvance ▸ Or.inr hstate, hstates⟩
  · rw [hlist', List.pairwise_cons]
    exact ⟨fun e he => hadvance ▸ hfirst e he, hrest⟩
  · rw [hlist'] at he
    obtain rfl := Option.some.inj he
    rw [hleft, hio, hadvanced]
  · rw [hleft, hio]
    omega

/-- The last sector of the first request: the command of the next one, that has waited, is sent. -/
theorem Inv.interrupt_done {io : BioRequest} {rest : List (TaskId × BioRequest)} (h : s.Inv)
    (hlist : s.requests = (task, io) :: rest) (hstate : io.state.RwSector)
    (hlist' : s.interrupt.requests = rest)
    (hleft : ∀ next ∈ rest.head?, next.2.state.Send → s.interrupt.card.left = next.2.count) :
    s.interrupt.Inv := by
  have hmem : (task, io) ∈ s.requests := by simp [hlist]
  obtain ⟨hcounts, hstates, hfirst, hrest⟩ := h.rest hlist
  have hnext : ∀ next ∈ rest.head?, next.2.state.Send := by
    intro next hnext
    have hin : next ∈ rest := List.mem_of_mem_head? hnext
    exact (hstates next hin).resolve_right fun hrw => hfirst next hin ⟨hstate, hrw⟩
  refine h.interrupt_of ?_ (hlist' ▸ hcounts) (hlist' ▸ hstates) (Or.inl (h.not_sent hmem hstate))
    (hlist' ▸ hrest) (fun e he hrw => ?_) fun hne => ?_
  · rw [hlist', hlist, List.map_cons]
    exact List.subset_cons_self _ _
  · rw [hlist'] at he
    exact absurd hrw (hnext e he).not_rwSector
  · -- The card has the interrupts of that command to raise.
    rw [hlist'] at hne
    obtain ⟨next, rest', rfl⟩ := List.exists_cons_of_ne_nil hne
    rw [hleft next rfl (hnext next rfl)]
    exact (hcounts next List.mem_cons_self).1

/-- An interrupt that meets the condition. -/
theorem Inv.interrupt (h : s.Inv) (hguard : s.Guarded .interrupt) : s.interrupt.Inv := by
  have hspec : Cf20.Interrupted s.toCf20 s.interrupt.toCf20 := Cf20.raise_cf20Handler h.counts h.states
  cases hspec with
  | spurious hlist hlist' =>
    refine h.interrupt_of ?_ ?_ ?_ (Or.inr ⟨hlist'.trans hlist.symm, hguard⟩) ?_ ?_ fun hne => absurd hlist' hne
    all_goals simp [hlist']
  | again hlist hstate hlist' hleft =>
    obtain ⟨hpos, -⟩ := h.counts _ (hlist ▸ List.mem_cons_self)
    refine h.interrupt_of ?_ (hlist' ▸ h.counts) (hlist' ▸ h.states) (Or.inr ⟨hlist', hguard⟩)
      (hlist' ▸ h.single) (fun e he hrw => ?_) fun _ => hleft ▸ hpos
    · rw [hlist']
      exact List.Subset.refl _
    · rw [hlist', hlist] at he
      obtain rfl := Option.some.inj he
      exact absurd hrw hstate.not_rwSector
  | more hlist hstate hcount hlist' hleft => exact h.interrupt_more hlist hstate hcount hlist' hleft
  | done hlist hstate hlist' hleft => exact h.interrupt_done hlist hstate hlist' hleft

/-- Every guarded step keeps the invariant. -/
theorem Inv.step {op : Op} (h : s.Inv) (hguard : s.Guarded op) (hs : s.step op = some s') : s'.Inv := by
  cases op with
  | submit r =>
    simp only [Cf20Tasks.step] at hs
    split_ifs at hs with hbusy
    exact Option.some.inj hs ▸ h.submit fun hmem => hbusy (Or.inl hmem)
  | next task =>
    obtain ⟨call, hcall, rfl⟩ := Option.map_eq_some_iff.mp hs
    cases call with
    | send r => exact h.next_send hcall (hguard r hcall)
    | sleep r state => exact h.next_sleep hcall
  | interrupt =>
    simp only [Cf20Tasks.step] at hs
    split_ifs at hs
    exact Option.some.inj hs ▸ h.interrupt hguard

end Cf20Tasks

/-- **No completion is lost along guarded runs.** With the interrupts of the card at any time after a command,
and the submissions of the tasks in any order: if no interrupt finds the list empty while a task has sent its
command and is not on the list yet, and no task sends its command while the card has interrupts of another one left
to raise, then in all states of the run, if the card has no interrupt left to raise, the request that the last
command was sent for does not wait on the list. -/
theorem cf20_none_lost (ops : List Cf20Tasks.Op)
    (h : Steps Cf20Tasks.step Cf20Tasks.Guarded Cf20Tasks.initial ops) :
    Always Cf20Tasks.step Cf20Tasks.NoneLost Cf20Tasks.initial ops := by
  have hinv : Always Cf20Tasks.step Cf20Tasks.Inv Cf20Tasks.initial ops :=
    always_of_steps (fun s op s' hi hg hs => hi.step hg hs) Cf20Tasks.inv_initial h
  exact hinv.imp fun s hi => hi.noneLost

namespace Cf20Tasks

/-- The task sends its command next. -/
def sends (s : Cf20Tasks) (task : TaskId) : Bool :=
  match s.calls task with
  | some (.send _) => true
  | _ => false

/-- An interrupt finds a request, and a command a card that has raised all its interrupts. -/
def InTurn (s : Cf20Tasks) : Op → Prop
  | .interrupt => s.requests.map Prod.fst ≠ []
  | .next task => s.sends task → s.card.left = 0
  | .submit _ => True

instance (s : Cf20Tasks) : ∀ op, Decidable (s.InTurn op)
  | .interrupt => inferInstanceAs (Decidable (_ ≠ _))
  | .next _ => inferInstanceAs (Decidable (_ → _))
  | .submit _ => inferInstanceAs (Decidable True)

theorem InTurn.guarded (s : Cf20Tasks) (op : Op) (h : s.InTurn op) : s.Guarded op := by
  cases op with
  | interrupt => exact fun hempty => absurd (by rw [hempty]; rfl) h
  | next task => exact fun r hcall => h (by simp [sends, hcall])
  | submit r => exact trivial

end Cf20Tasks

/-- Two tasks find the list empty, and are served one after the other. -/
def turnOps : List Cf20Tasks.Op :=
  [.submit ⟨1, .read, 0, 1, 0x1000⟩, .submit ⟨2, .read, 5, 1, 0x2000⟩, .next 1, .next 1, .interrupt, .next 2, .next 2,
    .interrupt]

/-- Each interrupt comes when its task is on the list. -/
theorem cf20_none_lost_in_turn :
    Steps Cf20Tasks.step Cf20Tasks.Guarded Cf20Tasks.initial turnOps ∧
      Always Cf20Tasks.step Cf20Tasks.NoneLost Cf20Tasks.initial turnOps := by
  have hturn : Steps Cf20Tasks.step Cf20Tasks.InTurn Cf20Tasks.initial turnOps := by decide +kernel
  have hsteps := hturn.imp Cf20Tasks.InTurn.guarded
  exact ⟨hsteps, cf20_none_lost _ hsteps⟩

/-- A request of one sector, whose interrupt comes after the command and before its task is on the list. The
handler drops it; the task then waits, and the card has no interrupt left to raise. -/
theorem not_always_noneLost_between :
    ¬ Always Cf20Tasks.step Cf20Tasks.NoneLost Cf20Tasks.initial
      [.submit ⟨1, .read, 0, 1, 0x1000⟩, .next 1, .interrupt, .next 1] := by
  intro h
  have hrun : (run Cf20Tasks.step Cf20Tasks.initial
      [.submit ⟨1, .read, 0, 1, 0x1000⟩, .next 1, .interrupt, .next 1]).map
        (fun s => (s.card.left, s.lastFor, s.requests.map fun e => (e.1, e.2.count))) =
      some (0, some 1, [(1, 1)]) := by
    decide
  obtain ⟨s, hs, he⟩ := Option.map_eq_some_iff.mp hrun
  simp only [Prod.mk.injEq] at he
  obtain ⟨hleft, hlast, hrequests⟩ := he
  have hmem : (1, 1) ∈ s.requests.map fun e => (e.1, e.2.count) := by simp [hrequests]
  obtain ⟨⟨task, io⟩, hmem, heq⟩ := List.mem_map.mp hmem
  obtain ⟨rfl, hcount⟩ := Prod.mk.inj heq
  have hzero := h.last hs hleft 1 hlast io hmem
  rw [hzero] at hcount
  cases hcount

end I80k.Kernel

import I80k.Kernel.Scheduler

/-!
# Waiting for a dead task

`scheduler_wait` returns the pid of a dead task and frees its structure and its stack. The loop looks
for the task on `zombies`; nothing takes it from there. The structure stays linked after it was freed,
and the next call that looks for it finds it again.

A call that sleeps is spread over several steps: the task that made it takes another turn of the loop
when it runs again, while the other tasks go on.

## Main definitions

* `Reaping`: a scheduler, with the calls of `scheduler_wait` in progress and what they have freed
* `Reaping.ReapedOnce`: what was freed is on no list, and was freed once
* `Reaping.Finds`: the step is a turn of `scheduler_wait` that finds a dead task

## Main results

* `Sched.findDead_mem`: the task found is on `zombies`
* `reapedOnce_iff`: tasks are reaped once exactly as long as no call finds one
-/

namespace I80k.Kernel

open StepSystem

namespace Sched

/-- What `scheduler_wait` finds is on `zombies`. -/
theorem findDead_mem {s : Sched} {cur t : TaskId} {pid : Pid} (h : s.findDead cur pid = some t) :
    t ∈ s.zombies := by
  rw [findDead] at h
  split_ifs at h
  · exact List.mem_of_find?_eq_some h
  · exact List.mem_of_find?_eq_some h

end Sched

/-- A turn that reaps a task found it. -/
theorem schedulerWait_reaped {s : Sched} {cur t : TaskId} {pid dead : Pid} {options wstatus : Int16}
    (h : schedulerWait s cur pid options = some (.reaped t dead wstatus)) :
    ¬ pid < -1 ∧ s.findDead cur pid = some t := by
  by_cases hpid : pid < -1
  · simp [schedulerWait, hpid] at h
  · refine ⟨hpid, ?_⟩
    cases hfind : s.findDead cur pid with
    | none =>
      by_cases hang : noHang options
      · simp [schedulerWait, hpid, hfind, hang] at h
      · simp [schedulerWait, hpid, hfind, hang] at h
    | some u =>
      simp only [schedulerWait, if_neg hpid, hfind, Option.some.injEq, WaitTurn.reaped.injEq] at h
      rw [h.1]

/-- A scheduler whose tasks wait for each other. -/
structure Reaping extends Sched where
  created : List TaskId
  /-- The arguments of the call of `scheduler_wait` that a task is inside of. -/
  pending : TaskId → Option (Pid × Int16)
  /-- The structures that `scheduler_wait` freed, the last one first. -/
  freed : List TaskId

/-- The steps of the tasks. `resume` is another turn of the loop of `scheduler_wait`. -/
inductive WaitOp
  | schedule
  | queueNew (t : TaskId) (prio : ℤ)
  | exit (status : Int16)
  | wait (pid : Pid) (options : Int16)
  | resume

namespace Reaping

/-- The call that the current task is inside of. -/
def inCall (c : Reaping) : Option (Pid × Int16) := c.current.bind c.pending

/-- The steps that happen: inside of a call, a task can only be interrupted or take another turn. -/
def Admits (c : Reaping) : WaitOp → Prop
  | .schedule => True
  | .queueNew t _ => c.inCall = none ∧ t ∉ c.created
  | .exit _ => c.inCall = none
  | .wait _ _ => c.inCall = none
  | .resume => c.inCall ≠ none

instance (c : Reaping) : DecidablePred c.Admits
  | .schedule => inferInstanceAs (Decidable True)
  | .queueNew _ _ => inferInstanceAs (Decidable (_ ∧ _))
  | .exit _ => inferInstanceAs (Decidable (_ = none))
  | .wait _ _ => inferInstanceAs (Decidable (_ = none))
  | .resume => inferInstanceAs (Decidable (_ ≠ none))

/-- A turn of `scheduler_wait(pid, &wstatus, options)` by the current task. -/
def turn (c : Reaping) (pid : Pid) (options : Int16) : Option Reaping :=
  c.current.bind fun cur => (schedulerWait c.toSched cur pid options).map fun
    | .returned _ => { c with pending := Function.update c.pending cur none }
    | .reaped t _ _ => { c with
        pending := Function.update c.pending cur none
        freed := t :: c.freed }
    | .slept s => { c with
        toSched := s
        pending := Function.update c.pending cur (some (pid, options)) }

/-- The step takes effect. -/
def exec (c : Reaping) : WaitOp → Option Reaping
  | .schedule => c.toSched.schedule.map fun s => { c with toSched := s }
  | .queueNew t prio =>
    (c.schedulerQueueNew t prio).map fun (s, _) => { c with toSched := s, created := t :: c.created }
  | .exit status => (c.schedulerExit status).map fun s => { c with toSched := s }
  | .wait pid options => c.turn pid options
  | .resume => c.inCall.bind fun (pid, options) => c.turn pid options

/-- One step. -/
def step (c : Reaping) (op : WaitOp) : Option Reaping :=
  if c.Admits op then c.exec op else none

/-- The scheduler after `scheduler_initialize`. -/
def boot (tasks : TaskId → Task) (main : TaskId) : Reaping where
  toSched := schedulerInitialize tasks main
  created := [main]
  pending := fun _ => none
  freed := []

/-- What was freed is on none of the lists of the scheduler, and was freed once. -/
structure ReapedOnce (c : Reaping) : Prop where
  ready : ∀ t ∈ c.freed, t ∉ c.ready
  zombies : ∀ t ∈ c.freed, t ∉ c.zombies
  queues : ∀ t ∈ c.freed, ∀ q, t ∉ c.queues q
  once : c.freed.Nodup

/-- A turn for `pid` by the current task finds a dead task. -/
def TurnFinds (c : Reaping) (pid : Pid) : Prop :=
  ¬ pid < -1 ∧ ∃ cur, c.current = some cur ∧ c.findDead cur pid ≠ none

/-- The step is a turn of `scheduler_wait` that finds a dead task. -/
def Finds (c : Reaping) : WaitOp → Prop
  | .wait pid _ => c.inCall = none ∧ c.TurnFinds pid
  | .resume => ∃ call, c.inCall = some call ∧ c.TurnFinds call.1
  | _ => False

variable {c c' : Reaping} {pid : Pid} {options : Int16}

/-- A turn that finds a task frees it, and leaves it on `zombies`. -/
theorem turn_of_finds (h : c.TurnFinds pid) (options : Int16) :
    ∃ c', c.turn pid options = some c' ∧ c'.zombies = c.zombies ∧
      ∃ t ∈ c.zombies, c'.freed = t :: c.freed := by
  obtain ⟨hpid, cur, hcur, hfind⟩ := h
  obtain ⟨t, ht⟩ := Option.ne_none_iff_exists'.mp hfind
  refine ⟨{ c with pending := Function.update c.pending cur none, freed := t :: c.freed }, ?_, rfl, t,
    Sched.findDead_mem ht, rfl⟩
  simp [turn, schedulerWait, hcur, hpid, ht]

/-- A turn that finds nothing frees nothing. -/
theorem turn_of_not_finds (h : ¬ c.TurnFinds pid) (ht : c.turn pid options = some c') :
    c'.freed = c.freed := by
  obtain ⟨cur, hcur, hw⟩ := Option.bind_eq_some_iff.mp ht
  obtain ⟨w, hturn, rfl⟩ := Option.map_eq_some_iff.mp hw
  cases w with
  | returned value => rfl
  | slept s => rfl
  | reaped t dead wstatus =>
    obtain ⟨hpid, hfind⟩ := schedulerWait_reaped hturn
    exact absurd ⟨hpid, cur, hcur, by simp [hfind]⟩ h

/-- A step that finds a task leaves what it frees on `zombies`. -/
theorem step_of_finds {op : WaitOp} (h : c.Finds op) : ∃ c', c.step op = some c' ∧ ¬ c'.ReapedOnce := by
  have hturn : ∀ {pid options}, c.TurnFinds pid →
      ∃ c', c.turn pid options = some c' ∧ ¬ c'.ReapedOnce := by
    intro pid options hf
    obtain ⟨c', hc', hz, t, ht, hfreed⟩ := turn_of_finds hf options
    refine ⟨c', hc', fun hr => hr.zombies t ?_ ?_⟩
    · simp [hfreed]
    · rwa [hz]
  cases op with
  | wait pid options =>
    obtain ⟨hin, hf⟩ := h
    simpa [step, Admits, hin, exec] using hturn hf
  | resume =>
    obtain ⟨call, hin, hf⟩ := h
    simpa [step, Admits, hin, exec] using hturn hf
  | schedule => exact h.elim
  | queueNew t prio => exact h.elim
  | exit status => exact h.elim

/-- A step that finds no task frees nothing. -/
theorem step_of_not_finds {op : WaitOp} (h : ¬ c.Finds op) (hs : c.step op = some c') :
    c'.freed = c.freed := by
  rw [step] at hs
  split_ifs at hs with ha
  cases op with
  | schedule =>
    obtain ⟨s, -, rfl⟩ := Option.map_eq_some_iff.mp hs
    rfl
  | queueNew t prio =>
    obtain ⟨s, -, rfl⟩ := Option.map_eq_some_iff.mp hs
    rfl
  | exit status =>
    obtain ⟨s, -, rfl⟩ := Option.map_eq_some_iff.mp hs
    rfl
  | wait pid options => exact turn_of_not_finds (fun hf => h ⟨ha, hf⟩) hs
  | resume =>
    obtain ⟨call, hin, ht⟩ := Option.bind_eq_some_iff.mp hs
    exact turn_of_not_finds (fun hf => h ⟨call, hin, hf⟩) ht

/-- Nothing was freed, so nothing was freed twice. -/
theorem reapedOnce_of_freed (h : c.freed = []) : c.ReapedOnce := by
  constructor <;> simp [h]

end Reaping

/-- **Dead tasks are reaped once, exactly while none is reaped.** In every run from the initialised
scheduler: a reaped task is on no list and is reaped once, in all states of the run, if and only if
no turn of `scheduler_wait` finds a dead task. -/
theorem reapedOnce_iff (tasks : TaskId → Task) (main : TaskId) (ops : List WaitOp) :
    Always Reaping.step Reaping.ReapedOnce (Reaping.boot tasks main) ops ↔
      Steps Reaping.step (fun c op => ¬ c.Finds op) (Reaping.boot tasks main) ops := by
  refine always_iff_steps (I := fun c => c.freed = []) (fun c op c' hi _ hc hs => ?_)
    (fun c op _ _ hc => Reaping.step_of_finds (not_not.mp hc)) rfl (Reaping.reapedOnce_of_freed rfl)
  have hfreed := (Reaping.step_of_not_finds hc hs).trans hi
  exact ⟨hfreed, Reaping.reapedOnce_of_freed hfreed⟩

/-- The main task waits twice for its only child, which exited: both calls free it. -/
theorem not_always_reapedOnce_child :
    ¬ Always Reaping.step Reaping.ReapedOnce (Reaping.boot (fun _ => ⟨.ready, 0, 0, 0, 0, 0⟩) 0)
      [.queueNew 1 1, .schedule, .exit 3, .wait (-1) 0, .wait (-1) 0] := by
  intro h
  have hrun : (run Reaping.step (Reaping.boot (fun _ => ⟨.ready, 0, 0, 0, 0, 0⟩) 0)
      [.queueNew 1 1, .schedule, .exit 3, .wait (-1) 0, .wait (-1) 0]).map (fun c => c.freed) =
        some [1, 1] := by
    decide
  obtain ⟨c, hc, hfreed⟩ := Option.map_eq_some_iff.mp hrun
  have honce := (h.last hc).once
  rw [hfreed] at honce
  exact absurd honce (by decide)

end I80k.Kernel

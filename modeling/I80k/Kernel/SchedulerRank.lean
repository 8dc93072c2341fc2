import I80k.Kernel.SchedulerFrame
import I80k.Kernel.SchedulerInvariant
import I80k.Kernel.SchedulerOrder

/-!
# The priority of the running task

`schedule` takes the next task off the ready list before it puts the current one back, and does not compare
the two. A task that still runs is replaced by the first one of the list, also by one of a lower priority;
and the idle task, which is on the list while another one is current, gets its turn like any other.

## Main definitions

* `Threads.scheduleAt`: the state in which an operation calls `schedule`
* `Threads.RunsHighest`: no task that is ready has a higher priority than the current one, and the idle task
  only runs alone
* `Sched.HeadRanks`: the first task of the ready list may run now

## Main results

* `Sched.schedule_spec`: what `schedule` does to the current task and the ready list
* `Sched.runsHighest_schedule_iff`: when the choice of `schedule` is right
* `Threads.ordered_step`: every step keeps the order of the ready list
* `schedule_runs_highest_iff`: when it is right in the states of a run
-/

namespace I80k.Kernel

open StepSystem

namespace Sched

variable {s s' : Sched} {idle prev next : TaskId} {ready : List TaskId}

/-- No task that is ready has a higher priority than the current one, and the idle task is current only if
nothing is ready. -/
def RunsHighest (s : Sched) (idle : TaskId) : Prop :=
  ∀ cur, s.current = some cur →
    (∀ t ∈ s.ready, (s.tasks t).prio ≤ (s.tasks cur).prio) ∧ (cur = idle → s.ready = [])

/-- If the current task still runs, the first one of the ready list is not below it, and not the idle task;
if it does not, the first one is not the idle task unless it is the only one. -/
def HeadRanks (s : Sched) (idle : TaskId) : Prop :=
  ∀ prev next ready, s.current = some prev → s.ready = next :: ready →
    if (s.tasks prev).state = .running then (s.tasks prev).prio ≤ (s.tasks next).prio ∧ next ≠ idle
    else next = idle → ready = []

theorem prio_setState (t u : TaskId) (state : TaskState) : ((s.setState t state).tasks u).prio = (s.tasks u).prio := by
  rw [setState, modify]
  dsimp only
  rw [Function.update_apply]
  split_ifs with hu
  · rw [hu]
  · rfl

/-- **A switch of tasks**: the first one of the list becomes current, and the one that was current goes to
the list if it still runs. -/
theorem schedule_spec (hcur : s.current = some prev) (hready : s.ready = next :: ready)
    (h : s.schedule = some s') :
    s'.current = some next ∧
      s'.ready.Perm (if (s.tasks prev).state = .running then prev :: ready else ready) ∧
      ∀ t, (s'.tasks t).prio = (s.tasks t).prio := by
  simp only [schedule, hcur, hready, Option.bind_eq_bind] at h
  split_ifs at h ⊢ with hrun
  · obtain ⟨s₁, hput, hs'⟩ := Option.bind_eq_some_iff.mp h
    obtain rfl := Option.some.inj hs'
    obtain ⟨ready', hput', hperm⟩ :=
      putReady_spec (({ s with ready, current := some next } : Sched).setState prev .ready) prev
    obtain rfl := Option.some.inj (hput'.symm.trans hput)
    exact ⟨rfl, hperm, fun t => (prio_setState next t _).trans (prio_setState prev t _)⟩
  · obtain rfl := Option.some.inj h
    exact ⟨rfl, .refl _, fun t => prio_setState next t _⟩

/-- **When the choice is right**, for an ordered list. -/
theorem runsHighest_schedule_iff (ho : s.Ordered) (h : s.schedule = some s') (hcur : s.current = some prev) :
    s'.RunsHighest idle ↔ s.HeadRanks idle := by
  cases hready : s.ready with
  | nil =>
    -- nothing is ready, and the task goes on
    obtain rfl : s = s' := by simpa [schedule, hcur, hready] using h
    constructor
    · intro _ _ _ _ _ hcons
      exact absurd (hready.symm.trans hcons) (by simp)
    · intro _ _ _
      rw [hready]
      exact ⟨fun t ht => absurd ht List.not_mem_nil, fun _ => rfl⟩
  | cons next ready =>
    obtain ⟨hcur', hperm, hprio⟩ := schedule_spec hcur hready h
    have hbelow : ∀ t ∈ ready, (s.tasks t).prio ≤ (s.tasks next).prio := by
      rw [Ordered, hready] at ho
      exact (List.pairwise_cons.mp ho).1
    have hafter : s'.RunsHighest idle ↔
        (∀ t ∈ s'.ready, (s.tasks t).prio ≤ (s.tasks next).prio) ∧ (next = idle → s'.ready = []) := by
      simp only [RunsHighest, hcur', Option.some.injEq, forall_eq', hprio]
    have hbefore : s.HeadRanks idle ↔
        if (s.tasks prev).state = .running then (s.tasks prev).prio ≤ (s.tasks next).prio ∧ next ≠ idle
        else next = idle → ready = [] := by
      constructor
      · intro hranks
        exact hranks prev next ready hcur hready
      · intro hhead prev' next' ready' hcur₁ hready₁
        obtain rfl := Option.some.inj (hcur.symm.trans hcur₁)
        obtain ⟨rfl, rfl⟩ := List.cons.inj (hready.symm.trans hready₁)
        exact hhead
    rw [hafter, hbefore]
    -- a task that still runs is on the list after the switch, so that the list is not empty
    split_ifs at hperm ⊢ with hrun
    · have hne : s'.ready ≠ [] := by
        intro hnil
        rw [hnil] at hperm
        exact absurd hperm.nil_eq (by simp)
      constructor
      · rintro ⟨hhigh, hidle⟩
        exact ⟨hhigh prev (hperm.mem_iff.mpr List.mem_cons_self), fun heq => hne (hidle heq)⟩
      · rintro ⟨hle, hidle⟩
        refine ⟨fun t ht => ?_, fun heq => absurd heq hidle⟩
        rcases List.mem_cons.mp (hperm.mem_iff.mp ht) with rfl | ht
        · exact hle
        · exact hbelow t ht
    · constructor
      · rintro ⟨-, hidle⟩ heq
        rw [hidle heq] at hperm
        exact hperm.nil_eq.symm
      · intro hidle
        refine ⟨fun t ht => hbelow t (hperm.mem_iff.mp ht), fun heq => ?_⟩
        rw [hidle heq] at hperm
        exact hperm.eq_nil

end Sched

namespace Threads

variable {c c' : Threads} {s : Sched} {op : SchedOp}

/-- No task that is ready has a higher priority than the current one, and the idle task only runs alone. -/
def RunsHighest (c : Threads) : Prop := c.toSched.RunsHighest c.idle

/-- The state in which the operation calls `schedule`. -/
def scheduleAt (c : Threads) : SchedOp → Option Sched
  | .schedule => some c.toSched
  | .sleepOn q sleepData => c.current.map fun cur =>
    (c.modify cur fun task => { task with state := .waiting, waitState := sleepData }).listAdd q cur
  | .exit status => c.current.bind fun cur =>
    if (c.tasks cur).pid = 0 then none
    else
      let s := c.modify cur fun task => { task with state := .zombie, status := status }
      { s with zombies := s.zombies ++ [cur] }.wakeWaiter cur
  | _ => none

/-- Nothing follows the call. -/
theorem exec_of_scheduleAt (h : c.scheduleAt op = some s) :
    c.exec op = s.schedule.map fun s => { c with toSched := s } := by
  cases op with
  | schedule =>
    obtain rfl := Option.some.inj h
    rfl
  | sleepOn q sleepData =>
    obtain ⟨cur, hcur, rfl⟩ := Option.map_eq_some_iff.mp h
    simp only [exec, Sched.schedulerSleepOn, hcur, Option.bind_some]
  | exit status =>
    obtain ⟨cur, hcur, h⟩ := Option.bind_eq_some_iff.mp h
    split_ifs at h with hpid
    simp only [exec, Sched.schedulerExit, hcur, if_neg hpid, Option.bind_eq_bind, h, Option.bind_some]
  | queueNew => exact absurd h (by simp [scheduleAt])
  | wakeUp => exact absurd h (by simp [scheduleAt])

theorem current_wakeWaiter {cur : TaskId} {s s' : Sched} (h : s.wakeWaiter cur = some s') :
    s'.current = s.current := by
  unfold Sched.wakeWaiter at h
  split at h
  · exact congrArg Sched.current (Option.some.inj h).symm
  · exact (Sched.putReady_frame h).2.2.2

/-- The list is ordered, and the task is the same, where `schedule` is called. -/
theorem ordered_scheduleAt (ho : c.Ordered) (h : c.scheduleAt op = some s) :
    s.Ordered ∧ s.current = c.current := by
  cases op with
  | schedule =>
    obtain rfl := Option.some.inj h
    exact ⟨ho, rfl⟩
  | sleepOn q sleepData =>
    obtain ⟨cur, hcur, rfl⟩ := Option.map_eq_some_iff.mp h
    have hwait := ho.modify (t := cur) (f := fun task => { task with state := .waiting, waitState := sleepData })
      fun _ => rfl
    exact ⟨hwait.congr rfl rfl, rfl⟩
  | exit status =>
    obtain ⟨cur, hcur, h⟩ := Option.bind_eq_some_iff.mp h
    split_ifs at h with hpid
    have hzombie := ho.modify (t := cur) (f := fun task => { task with state := .zombie, status := status })
      fun _ => rfl
    have hcur' := current_wakeWaiter h
    refine ⟨Sched.Ordered.wakeWaiter ?_ h, hcur'⟩
    exact hzombie.congr rfl rfl
  | queueNew => exact absurd h (by simp [scheduleAt])
  | wakeUp => exact absurd h (by simp [scheduleAt])

/-- Every step keeps the order of the ready list. -/
theorem ordered_step {place : TaskId → Option Place} (h : c.Assigned place) (ho : c.Ordered)
    (hs : c.step op = some c') : c'.Ordered := by
  rw [step] at hs
  split_ifs at hs with ha
  cases op with
  | schedule =>
    obtain ⟨s, hsched, rfl⟩ := Option.map_eq_some_iff.mp hs
    exact ho.schedule hsched
  | queueNew t prio =>
    obtain ⟨⟨s, pid⟩, hnew, rfl⟩ := Option.map_eq_some_iff.mp hs
    -- a task that is created is not ready already
    refine ho.queueNew (fun hmem => ha ?_) hnew
    rw [h.created, (h.placed.ready t).mp hmem]
    simp
  | exit status =>
    obtain ⟨s, hexit, rfl⟩ := Option.map_eq_some_iff.mp hs
    exact ho.exit hexit
  | sleepOn q sleepData =>
    obtain ⟨s, hsleep, rfl⟩ := Option.map_eq_some_iff.mp hs
    exact ho.sleepOn hsleep
  | wakeUp q t =>
    obtain ⟨s, hwake, rfl⟩ := Option.map_eq_some_iff.mp hs
    refine Sched.Ordered.wakeUp ?_ hwake
    exact ho.congr rfl rfl

/-- In the states of a run the tasks are in their places, and the ready list is ordered. -/
theorem assigned_run {tasks : TaskId → Task} {main idle : TaskId} (hne : main ≠ idle) {c₀ : Threads}
    (hboot : boot tasks main idle = some c₀) {ops : List SchedOp} (hrun : run step c₀ ops = some c) :
    (∃ place, c.Assigned place) ∧ c.Ordered := by
  refine run_invariant step (P := fun c => (∃ place, c.Assigned place) ∧ c.Ordered) ?_ ?_ hrun
  · rintro c op c' ⟨⟨place, h⟩, ho⟩ hs
    exact ⟨h.step hs, ordered_step h ho hs⟩
  · refine ⟨assigned_of_boot hne hboot, ?_⟩
    obtain ⟨s, hs, rfl⟩ := Option.map_eq_some_iff.mp hboot
    obtain ⟨⟨s, pid⟩, hnew, rfl⟩ := Option.map_eq_some_iff.mp hs
    have hempty : (schedulerInitialize tasks main).Ordered := List.Pairwise.nil
    exact hempty.queueNew (by simp [schedulerInitialize]) hnew

end Threads

/-- **The priority of the running task, exactly.** In every state of a run from the initialised scheduler,
wherever an operation calls `schedule`: after it no task that is ready has a higher priority than the
current one, and the idle task is current only if nothing is ready, if and only if the first one of the
ready list may run at that time. -/
theorem schedule_runs_highest_iff (tasks : TaskId → Task) (main idle : TaskId) (hne : main ≠ idle)
    (ops : List SchedOp) (c₀ c : Threads) (hboot : Threads.boot tasks main idle = some c₀)
    (hrun : run Threads.step c₀ ops = some c) (op : SchedOp) (ha : c.Admits op) (s : Sched)
    (hs : c.scheduleAt op = some s) :
    ∃ c', c.step op = some c' ∧ (c'.RunsHighest ↔ s.HeadRanks c.idle) := by
  obtain ⟨⟨place, h⟩, ho⟩ := Threads.assigned_run hne hboot hrun
  obtain ⟨c', place', hexec, -⟩ := h.exec ha
  obtain ⟨cur, hcur⟩ := h.running
  obtain ⟨ho', hcur'⟩ := Threads.ordered_scheduleAt ho hs
  refine ⟨c', by rw [Threads.step, if_pos ha, hexec], ?_⟩
  rw [Threads.exec_of_scheduleAt hs] at hexec
  obtain ⟨s', hsched, rfl⟩ := Option.map_eq_some_iff.mp hexec
  exact Sched.runsHighest_schedule_iff ho' hsched (hcur'.trans hcur)

/-- A new task of a higher priority than that of the main task gets its turn. -/
theorem schedule_runs_highest_new :
    ∃ c₀ c c', Threads.boot (fun _ => ⟨.ready, 0, 0, 0, 0, 0⟩) 0 1 = some c₀ ∧
      run Threads.step c₀ [.queueNew 2 5] = some c ∧ c.step .schedule = some c' ∧ c'.RunsHighest := by
  have hsome : ((Threads.boot (fun _ => ⟨.ready, 0, 0, 0, 0, 0⟩) 0 1).bind fun c₀ =>
      (run Threads.step c₀ [.queueNew 2 5]).map fun c => (c.current, c.ready, c.idle, (c.tasks 0).state,
        (c.tasks 0).prio, (c.tasks 2).prio)) = some (some 0, [2, 1], 1, .running, 0, 5) := by
    decide +kernel
  obtain ⟨c₀, hboot, hmap⟩ := Option.bind_eq_some_iff.mp hsome
  obtain ⟨c, hrun, hc⟩ := Option.map_eq_some_iff.mp hmap
  simp only [Prod.mk.injEq] at hc
  obtain ⟨hcur, hready, hidle, hstate, hmain, hnew⟩ := hc
  obtain ⟨c', hstep, hiff⟩ := schedule_runs_highest_iff _ 0 1 (by decide) _ c₀ c hboot hrun .schedule trivial
    c.toSched rfl
  refine ⟨c₀, c, c', hboot, hrun, hstep, hiff.mpr ?_⟩
  intro prev next ready hcur₁ hready₁
  obtain rfl := Option.some.inj (hcur.symm.trans hcur₁)
  obtain ⟨rfl, rfl⟩ := List.cons.inj (hready.symm.trans hready₁)
  rw [if_pos hstate, hmain, hnew, hidle]
  decide

/-- At boot, the main task runs and only the idle task is ready: `schedule` stops the main task, and the
idle task runs while it is ready. -/
theorem not_runsHighest_boot :
    ∃ c₀ c', Threads.boot (fun _ => ⟨.ready, 0, 0, 0, 0, 0⟩) 0 1 = some c₀ ∧
      c₀.step .schedule = some c' ∧ c'.current = some c'.idle ∧ c'.ready = [0] ∧ (c'.tasks 0).prio = 0 ∧
      (c'.tasks c'.idle).prio = -32767 ∧ ¬ c'.RunsHighest := by
  have hsome : ((Threads.boot (fun _ => ⟨.ready, 0, 0, 0, 0, 0⟩) 0 1).bind fun c₀ =>
      (c₀.step .schedule).map fun c' => (c'.current, c'.idle, c'.ready, (c'.tasks 0).prio, (c'.tasks 1).prio)) =
        some (some 1, 1, [0], 0, -32767) := by
    decide +kernel
  obtain ⟨c₀, hboot, hmap⟩ := Option.bind_eq_some_iff.mp hsome
  obtain ⟨c', hstep, hc'⟩ := Option.map_eq_some_iff.mp hmap
  simp only [Prod.mk.injEq] at hc'
  obtain ⟨hcur, hidle, hready, hmain, hprio⟩ := hc'
  refine ⟨c₀, c', hboot, hstep, by rw [hcur, hidle], hready, hmain, by rw [hidle, hprio], fun h => ?_⟩
  have hnil := (h 1 hcur).2 hidle.symm
  rw [hready] at hnil
  exact absurd hnil (by simp)

end I80k.Kernel

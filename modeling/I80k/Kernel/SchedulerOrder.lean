import I80k.Kernel.Scheduler

/-!
# The order of the ready list

`task_put` inserts a task behind the tasks of at least its priority. The ready list is ordered by decreasing
priority, and every operation of the scheduler keeps it so.

## Main definitions

* `Sched.Ordered`: the ready list is ordered by decreasing priority

## Main results

* `taskPut_ordered`: `task_put` keeps the order of a list
* `Sched.Ordered.schedule`, `Sched.Ordered.wakeUp`, `Sched.Ordered.exit`, `Sched.Ordered.sleepOn`,
  `Sched.Ordered.queueNew`: the operations keep the order of the ready list
-/

namespace I80k.Kernel

section Lists

variable {prio : TaskId → ℤ} {task : TaskId} {list l : List TaskId}

theorem taskInsert_perm (h : taskInsert prio task list = some l) : l.Perm (task :: list) := by
  induction list generalizing l with
  | nil => simp [taskInsert] at h
  | cons t ts ih =>
    unfold taskInsert at h
    split_ifs at h
    · exact Option.some.inj h ▸ List.Perm.refl _
    · obtain ⟨l', hl', rfl⟩ := Option.map_eq_some_iff.mp h
      exact ((ih hl').cons t).trans (List.Perm.swap task t ts)

/-- The loop of `task_put` keeps the order: the task is put in front of the first one below it. -/
theorem taskInsert_ordered (hlist : list.Pairwise fun t u => prio u ≤ prio t)
    (h : taskInsert prio task list = some l) : l.Pairwise fun t u => prio u ≤ prio t := by
  induction list generalizing l with
  | nil => simp [taskInsert] at h
  | cons t ts ih =>
    obtain ⟨hhead, htail⟩ := List.pairwise_cons.mp hlist
    unfold taskInsert at h
    split_ifs at h with hlt
    · obtain rfl := Option.some.inj h
      refine List.pairwise_cons.mpr ⟨fun u hu => ?_, hlist⟩
      rcases List.mem_cons.mp hu with rfl | hu
      · exact hlt.le
      · exact (hhead u hu).trans hlt.le
    · obtain ⟨l', hl', rfl⟩ := Option.map_eq_some_iff.mp h
      refine List.pairwise_cons.mpr ⟨fun u hu => ?_, ih htail hl'⟩
      rcases List.mem_cons.mp ((taskInsert_perm hl').mem_iff.mp hu) with rfl | hu
      · exact not_lt.mp hlt
      · exact hhead u hu

theorem taskPut_ordered (hlist : list.Pairwise fun t u => prio u ≤ prio t)
    (h : taskPut prio task list = some l) : l.Pairwise fun t u => prio u ≤ prio t := by
  rcases List.eq_nil_or_concat' list with rfl | ⟨ts, t, rfl⟩
  · obtain rfl : [task] = l := Option.some.inj h
    exact List.pairwise_singleton _ _
  · by_cases hle : prio task ≤ prio t
    · -- The last one has the lowest priority of the list.
      obtain rfl : ts ++ [t] ++ [task] = l := by simpa [taskPut, hle] using h
      refine List.pairwise_append.mpr ⟨hlist, List.pairwise_singleton _ _, fun u hu v hv => ?_⟩
      rw [List.mem_singleton.mp hv]
      rcases List.mem_append.mp hu with hu | hu
      · exact hle.trans ((List.pairwise_append.mp hlist).2.2 u hu t (by simp))
      · rwa [List.mem_singleton.mp hu]
    · exact taskInsert_ordered hlist (by simpa [taskPut, hle] using h)

end Lists

namespace Sched

variable {s s' : Sched} {t : TaskId}

/-- The ready list is ordered by decreasing priority. -/
def Ordered (s : Sched) : Prop := s.ready.Pairwise fun t u => (s.tasks u).prio ≤ (s.tasks t).prio

/-- A part of the list, with the same priorities. -/
theorem Ordered.sublist (h : s.Ordered) (hready : s'.ready.Sublist s.ready)
    (hprio : ∀ t ∈ s.ready, (s'.tasks t).prio = (s.tasks t).prio) : s'.Ordered := by
  refine (List.Pairwise.sublist hready h).imp_of_mem fun ht hu hle => ?_
  rwa [hprio _ (hready.subset ht), hprio _ (hready.subset hu)]

theorem Ordered.modify (h : s.Ordered) {f : Task → Task} (hf : ∀ x, (f x).prio = x.prio) :
    (s.modify t f).Ordered := by
  refine h.sublist (List.Sublist.refl _) fun u _ => ?_
  by_cases hu : u = t
  · subst hu
    simp [Sched.modify, hf]
  · simp [Sched.modify, hu]

theorem Ordered.setState (h : s.Ordered) (state : TaskState) : (s.setState t state).Ordered :=
  h.modify fun _ => rfl

theorem Ordered.putReady (h : s.Ordered) (hput : s.putReady t = some s') : s'.Ordered := by
  obtain ⟨ready, hready, rfl⟩ := Option.map_eq_some_iff.mp hput
  exact taskPut_ordered h hready

theorem Ordered.wakeUp (h : s.Ordered) (hwake : s.schedulerWakeUp (some t) = some s') : s'.Ordered :=
  (h.setState .ready).putReady hwake

theorem Ordered.schedule (h : s.Ordered) (hsched : s.schedule = some s') : s'.Ordered := by
  cases hcur : s.current with
  | none =>
    obtain rfl : s = s' := by simpa [Sched.schedule, hcur] using hsched
    exact h
  | some prev =>
    cases hready : s.ready with
    | nil =>
      obtain rfl : s = s' := by simpa [Sched.schedule, hcur, hready] using hsched
      exact h
    | cons next ready =>
      have htail : ({ s with ready, current := some next } : Sched).Ordered := by
        refine h.sublist ?_ fun _ _ => rfl
        rw [hready]
        exact List.sublist_cons_self next ready
      simp only [Sched.schedule, hcur, hready, Option.bind_eq_bind] at hsched
      split_ifs at hsched
      · obtain ⟨s₁, hput, hs'⟩ := Option.bind_eq_some_iff.mp hsched
        obtain rfl := Option.some.inj hs'
        exact ((htail.setState .ready).putReady hput).setState .running
      · obtain rfl := Option.some.inj hsched
        exact htail.setState .running

/-- Where the ready list and the tasks are the same, so is the order. -/
theorem Ordered.congr (h : s.Ordered) (hready : s'.ready = s.ready) (htasks : s'.tasks = s.tasks) :
    s'.Ordered := by
  unfold Ordered
  rw [hready, htasks]
  exact h

theorem Ordered.wakeWaiter {cur : TaskId} (h : s.Ordered) (hwake : s.wakeWaiter cur = some s') :
    s'.Ordered := by
  unfold Sched.wakeWaiter at hwake
  split at hwake
  · exact Option.some.inj hwake ▸ h
  · refine Ordered.wakeUp ?_ hwake
    exact h.congr rfl rfl

theorem Ordered.exit {status : Int16} (h : s.Ordered) (hexit : s.schedulerExit status = some s') :
    s'.Ordered := by
  rcases exit_cases hexit with rfl | ⟨cur, s₁, -, -, hwake, hsched⟩
  · exact h
  · have hzombie := h.modify (t := cur)
      (f := fun task => { task with state := .zombie, status := status }) fun _ => rfl
    refine Ordered.schedule (Ordered.wakeWaiter ?_ hwake) hsched
    exact hzombie.congr rfl rfl

theorem Ordered.sleepOn {queue : WaitQueue} {data : Pid} (h : s.Ordered)
    (hsleep : s.schedulerSleepOn (some queue) data = some s') : s'.Ordered := by
  obtain ⟨cur, -, hsched⟩ := Option.bind_eq_some_iff.mp hsleep
  have hwait := h.modify (t := cur) (f := fun task => { task with state := .waiting, waitState := data })
    fun _ => rfl
  refine Ordered.schedule ?_ hsched
  exact hwait.congr rfl rfl

theorem Ordered.queueNew {prio : ℤ} {pid : Pid} (h : s.Ordered) (ht : t ∉ s.ready)
    (hnew : s.schedulerQueueNew t prio = some (s', pid)) : s'.Ordered := by
  unfold Sched.schedulerQueueNew at hnew
  obtain ⟨cur, -, hnew⟩ := Option.bind_eq_some_iff.mp hnew
  obtain ⟨s₁, hput, hs'⟩ := Option.bind_eq_some_iff.mp hnew
  obtain ⟨rfl, -⟩ := Prod.mk.inj (Option.some.inj hs')
  refine Ordered.putReady ?_ hput
  refine h.sublist (List.Sublist.refl _) fun u hu => ?_
  have hne : u ≠ t := fun heq => ht (heq ▸ hu)
  simp [Sched.modify, hne]

end Sched

end I80k.Kernel

import I80k.Kernel.Scheduler

/-!
# Every task is in one place

A task is current, ready, asleep on a queue, or dead. The scheduler never writes down which: the
place of a task is where its node is linked, and `state` has to agree. The idle task makes the
difference between `schedule` and a switch: since it neither sleeps nor exits, it is ready whenever
another task is current, so a task that sleeps or exits always has a successor.

## Main definitions

* `Place`, `Sched.At`: the places, and that a task is in one of them
* `Sched.Partition`: each task is in exactly one place, once, and its state says so
* `Threads`: a scheduler, with the tasks created so far and the idle one
* `Threads.step`: an atomic step by the current task or by an interrupt handler

## Main results

* `Sched.Placed.schedule_of_running`, `Sched.Placed.schedule_of_away`: what `schedule` does
* `scheduler_partition`: the partition holds in every run, no step fails, and a task that sleeps or
  exits is not current any more
-/

namespace I80k.Kernel

open StepSystem

/-- Where a task can be. -/
inductive Place
  | current
  | ready
  | zombies
  | queue (q : WaitQueue)
  deriving DecidableEq

/-- The `state` field of a task in this place. -/
def Place.state : Place → TaskState
  | .current => .running
  | .ready => .ready
  | .zombies => .zombie
  | .queue _ => .waiting

namespace Sched

/-- The task is in the place. -/
def At (s : Sched) (t : TaskId) : Place → Prop
  | .current => s.current = some t
  | .ready => t ∈ s.ready
  | .zombies => t ∈ s.zombies
  | .queue q => t ∈ s.queues q

/-- Each of the tasks is in exactly one place, with the state of that place, and no list holds a task
twice. -/
structure Partition (s : Sched) (tasks : List TaskId) : Prop where
  place : ∀ t ∈ tasks, ∃! p, s.At t p
  known : ∀ t p, s.At t p → t ∈ tasks
  state : ∀ t p, s.At t p → (s.tasks t).state = p.state
  ready : s.ready.Nodup
  zombies : s.zombies.Nodup
  queues : ∀ q, (s.queues q).Nodup

/-! ## Moving a task

The lists agree with an assignment of places. A task without a place is on no list; an operation
takes a task from its place, changes its fields, and puts it in another one. -/

/-- The lists and the states are those of the assignment `place`. -/
structure Placed (s : Sched) (place : TaskId → Option Place) : Prop where
  ready : ∀ t, t ∈ s.ready ↔ place t = some .ready
  zombies : ∀ t, t ∈ s.zombies ↔ place t = some .zombies
  queues : ∀ q t, t ∈ s.queues q ↔ place t = some (.queue q)
  state : ∀ t p, place t = some p → (s.tasks t).state = p.state
  nodup_ready : s.ready.Nodup
  nodup_zombies : s.zombies.Nodup
  nodup_queues : ∀ q, (s.queues q).Nodup

section Update

variable {place : TaskId → Option Place} {t : TaskId} {o : Option Place} {p : Place}

/-- The tasks of a place that `t` neither leaves nor enters stay the same. -/
theorem update_place_iff (ht : place t ≠ some p) (ho : o ≠ some p) (u : TaskId) :
    place u = some p ↔ Function.update place t o u = some p := by
  by_cases hu : u = t
  · subst hu
    simp [ht, ho]
  · simp [hu]

/-- The place that `t` enters has one more task. -/
theorem update_place_self_iff (u : TaskId) :
    u = t ∨ place u = some p ↔ Function.update place t (some p) u = some p := by
  by_cases hu : u = t
  · simp [hu]
  · simp [hu]

/-- The states agree after a move if that of `t` does. -/
theorem state_update {s : Sched} (h : ∀ u p, place u = some p → (s.tasks u).state = p.state)
    (ht : ∀ p, o = some p → (s.tasks t).state = p.state) (u : TaskId) (p : Place)
    (hp : Function.update place t o u = some p) : (s.tasks u).state = p.state := by
  by_cases hu : u = t
  · subst hu
    exact ht p (by simpa using hp)
  · exact h u p (by simpa [hu] using hp)

end Update

namespace Placed

variable {s : Sched} {place : TaskId → Option Place} {t : TaskId}

/-- The current task is on no list. -/
theorem leave (h : Placed s place) (ht : place t = some .current) :
    Placed s (Function.update place t none) where
  ready u := (h.ready u).trans (update_place_iff (by simp [ht]) (by simp) u)
  zombies u := (h.zombies u).trans (update_place_iff (by simp [ht]) (by simp) u)
  queues q u := (h.queues q u).trans (update_place_iff (by simp [ht]) (by simp) u)
  state := state_update h.state (by simp)
  nodup_ready := h.nodup_ready
  nodup_zombies := h.nodup_zombies
  nodup_queues := h.nodup_queues

/-- A running task without a place becomes the current one. -/
theorem enter (h : Placed s place) (ht : place t = none) (hs : (s.tasks t).state = .running) :
    Placed s (Function.update place t (some .current)) where
  ready u := (h.ready u).trans (update_place_iff (by simp [ht]) (by simp) u)
  zombies u := (h.zombies u).trans (update_place_iff (by simp [ht]) (by simp) u)
  queues q u := (h.queues q u).trans (update_place_iff (by simp [ht]) (by simp) u)
  state := state_update h.state (by rintro p ⟨rfl⟩; exact hs)
  nodup_ready := h.nodup_ready
  nodup_zombies := h.nodup_zombies
  nodup_queues := h.nodup_queues

/-- The fields of a task without a place are free. -/
theorem modify (h : Placed s place) (ht : place t = none) (f : Task → Task) :
    Placed (s.modify t f) place where
  ready := h.ready
  zombies := h.zombies
  queues := h.queues
  state u p hp := by
    have hu : u ≠ t := by
      rintro rfl
      simp [ht] at hp
    simpa [Sched.modify, hu] using h.state u p hp
  nodup_ready := h.nodup_ready
  nodup_zombies := h.nodup_zombies
  nodup_queues := h.nodup_queues

/-- `list_delete` takes a task from its queue. -/
theorem listDelete {q : WaitQueue} (h : Placed s place) (ht : place t = some (.queue q)) :
    Placed (s.listDelete q t) (Function.update place t none) where
  ready u := (h.ready u).trans (update_place_iff (by simp [ht]) (by simp) u)
  zombies u := (h.zombies u).trans (update_place_iff (by simp [ht]) (by simp) u)
  queues q' u := by
    by_cases hq : q' = q
    · subst hq
      simp only [Sched.listDelete, Function.update_self, (h.nodup_queues q').mem_erase_iff, h.queues]
      by_cases hu : u = t
      · simp [hu]
      · simp [hu]
    · simp only [Sched.listDelete, Function.update_of_ne hq, h.queues]
      exact update_place_iff (by simpa [ht] using Ne.symm hq) (by simp) u
  state := state_update h.state (by simp)
  nodup_ready := h.nodup_ready
  nodup_zombies := h.nodup_zombies
  nodup_queues q' := by
    by_cases hq : q' = q
    · subst hq
      simpa [Sched.listDelete] using (h.nodup_queues q').erase t
    · simpa [Sched.listDelete, hq] using h.nodup_queues q'

/-- A waiting task without a place goes to the end of a queue. -/
theorem listAdd (h : Placed s place) (q : WaitQueue) (ht : place t = none)
    (hs : (s.tasks t).state = .waiting) :
    Placed (s.listAdd q t) (Function.update place t (some (.queue q))) where
  ready u := (h.ready u).trans (update_place_iff (by simp [ht]) (by simp) u)
  zombies u := (h.zombies u).trans (update_place_iff (by simp [ht]) (by simp) u)
  queues q' u := by
    by_cases hq : q' = q
    · subst hq
      simp only [Sched.listAdd, Function.update_self, List.mem_append, List.mem_singleton, h.queues]
      exact or_comm.trans (update_place_self_iff u)
    · simp only [Sched.listAdd, Function.update_of_ne hq, h.queues]
      exact update_place_iff (by simp [ht]) (by simpa using Ne.symm hq) u
  state := state_update h.state (by rintro p ⟨rfl⟩; exact hs)
  nodup_ready := h.nodup_ready
  nodup_zombies := h.nodup_zombies
  nodup_queues q' := by
    by_cases hq : q' = q
    · subst hq
      have hnot : t ∉ s.queues q' := by simp [h.queues, ht]
      simpa [Sched.listAdd] using (List.perm_append_singleton t _).nodup_iff.mpr
        (List.nodup_cons.mpr ⟨hnot, h.nodup_queues q'⟩)
    · simpa [Sched.listAdd, hq] using h.nodup_queues q'

/-- The first ready task is taken from the list. -/
theorem takeReady {ready : List TaskId} (h : Placed s place) (ht : s.ready = t :: ready)
    (cur : Option TaskId) :
    Placed { s with ready := ready, current := cur } (Function.update place t none) := by
  have hn := h.nodup_ready
  rw [ht, List.nodup_cons] at hn
  have hp : place t = some .ready := (h.ready t).mp (by simp [ht])
  refine ⟨fun u => ?_, fun u => (h.zombies u).trans (update_place_iff (by simp [hp]) (by simp) u),
    fun q u => (h.queues q u).trans (update_place_iff (by simp [hp]) (by simp) u),
    state_update h.state (by simp), hn.2, h.nodup_zombies, h.nodup_queues⟩
  by_cases hu : u = t
  · simp [hu, hn.1]
  · have hready := h.ready u
    rw [ht, List.mem_cons] at hready
    simpa [hu] using hready

/-- A ready task without a place goes to the ready list, wherever its priority puts it. -/
theorem putReady (h : Placed s place) (ht : place t = none) (hs : (s.tasks t).state = .ready) :
    ∃ s', s.putReady t = some s' ∧ s'.current = s.current ∧ s'.tasks = s.tasks ∧
      Placed s' (Function.update place t (some .ready)) := by
  obtain ⟨ready, hput, hperm⟩ := s.putReady_spec t
  have hnot : t ∉ s.ready := by simp [h.ready, ht]
  refine ⟨{ s with ready }, hput, rfl, rfl, fun u => ?_,
    fun u => (h.zombies u).trans (update_place_iff (by simp [ht]) (by simp) u),
    fun q u => (h.queues q u).trans (update_place_iff (by simp [ht]) (by simp) u),
    state_update h.state (by rintro p ⟨rfl⟩; exact hs), ?_, h.nodup_zombies, h.nodup_queues⟩
  · simp only [hperm.mem_iff, List.mem_cons, h.ready]
    exact update_place_self_iff u
  · exact hperm.nodup_iff.mpr (List.nodup_cons.mpr ⟨hnot, h.nodup_ready⟩)

/-- A dead task without a place goes to the zombies. -/
theorem addZombie (h : Placed s place) (ht : place t = none) (hs : (s.tasks t).state = .zombie) :
    Placed { s with zombies := s.zombies ++ [t] } (Function.update place t (some .zombies)) := by
  have hnot : t ∉ s.zombies := by simp [h.zombies, ht]
  refine ⟨fun u => (h.ready u).trans (update_place_iff (by simp [ht]) (by simp) u), fun u => ?_,
    fun q u => (h.queues q u).trans (update_place_iff (by simp [ht]) (by simp) u),
    state_update h.state (by rintro p ⟨rfl⟩; exact hs), h.nodup_ready, ?_, h.nodup_queues⟩
  · simp only [List.mem_append, List.mem_singleton, h.zombies]
    exact or_comm.trans (update_place_self_iff u)
  · exact (List.perm_append_singleton t _).nodup_iff.mpr (List.nodup_cons.mpr ⟨hnot, h.nodup_zombies⟩)

/-! ## The operations -/

/-- A task without a place that is woken up is ready. -/
theorem wakeUp (h : Placed s place) (ht : place t = none) :
    ∃ s', s.schedulerWakeUp (some t) = some s' ∧ s'.current = s.current ∧
      Placed s' (Function.update place t (some .ready)) := by
  obtain ⟨s', hput, hcur, -, h'⟩ :=
    (h.modify ht fun task => { task with state := .ready }).putReady ht (by simp [Sched.modify])
  exact ⟨s', hput, hcur, h'⟩

/-- A new task is ready. -/
theorem queueNew {cur : TaskId} (h : Placed s place) (hcur : s.current = some cur)
    (ht : place t = none) (prio : ℤ) :
    ∃ s', s.schedulerQueueNew t prio = some (s', s.nextPid) ∧ s'.current = s.current ∧
      Placed s' (Function.update place t (some .ready)) := by
  have hpid : Placed { s with nextPid := s.nextPid + 1 } place :=
    ⟨h.ready, h.zombies, h.queues, h.state, h.nodup_ready, h.nodup_zombies, h.nodup_queues⟩
  obtain ⟨s', hput, hcur', htasks, h'⟩ := (hpid.modify ht fun task => { task with
    pid := s.nextPid, parent := (s.tasks cur).pid, prio := prio, state := .ready }).putReady ht
    (by simp [Sched.modify])
  refine ⟨s', ?_, hcur', h'⟩
  refine Option.bind_eq_some_iff.mpr ⟨cur, hcur, Option.bind_eq_some_iff.mpr ⟨s', hput, ?_⟩⟩
  simp [htasks, Sched.modify]

/-- `schedule` by a task that left for another place: the next one is current. -/
theorem schedule_of_away {prev next : TaskId} {ready : List TaskId} (h : Placed s place)
    (hcur : s.current = some prev) (hprev : (s.tasks prev).state ≠ .running)
    (hready : s.ready = next :: ready) :
    ∃ s', s.schedule = some s' ∧ s'.current = some next ∧
      Placed s' (Function.update place next (some .current)) := by
  have htake := h.takeReady hready (some next)
  have hnext : Function.update place next none next = none := by simp
  have h' := (htake.modify hnext fun task => { task with state := .running }).enter hnext
    (by simp [Sched.modify])
  rw [Function.update_idem] at h'
  refine ⟨_, ?_, ?_, h'⟩
  · simp [Sched.schedule, hcur, hready, hprev, Sched.setState]
  · rfl

/-- `schedule` by a running task: it is ready again, and the next one is current. -/
theorem schedule_of_running {prev next : TaskId} {ready : List TaskId} (h : Placed s place)
    (hcur : s.current = some prev) (hprev : place prev = some .current)
    (hready : s.ready = next :: ready) :
    ∃ s', s.schedule = some s' ∧ s'.current = some next ∧
      Placed s' (Function.update (Function.update place prev (some .ready)) next (some .current)) := by
  have hplace : place next = some .ready := (h.ready next).mp (by simp [hready])
  have hne : next ≠ prev := by
    rintro rfl
    simp [hprev] at hplace
  have hrun : (s.tasks prev).state = .running := h.state prev _ hprev
  -- Both tasks leave their places; the previous one goes to the ready list first.
  have htake := (h.leave hprev).takeReady hready (some next)
  have hnone : Function.update (Function.update place prev none) next none prev = none := by
    simp [hne.symm]
  obtain ⟨s', hwake, hcur', hput⟩ := htake.wakeUp hnone
  rw [Function.update_comm hne, Function.update_idem] at hput
  have hnext : Function.update (Function.update place prev (some .ready)) next none next = none := by
    simp
  have h' := (hput.modify hnext fun task => { task with state := .running }).enter hnext
    (by simp [Sched.modify])
  rw [Function.update_idem] at h'
  refine ⟨s'.setState next .running, ?_, hcur', h'⟩
  rw [Sched.schedulerWakeUp] at hwake
  simp [Sched.schedule, hcur, hready, hrun, hwake]

/-- The waiter that an exit wakes up goes from `waiters` to the ready list. -/
theorem wakeWaiter (h : Placed s place) (cur : TaskId) :
    ∃ s' place', s.wakeWaiter cur = some s' ∧ s'.current = s.current ∧ Placed s' place' ∧
      ∀ u, place' u = place u ∨ place u = some (.queue .waiters) ∧ place' u = some .ready := by
  rw [Sched.wakeWaiter]
  cases hfind : (s.queues .waiters).find? fun t => s.WaitsFor cur t with
  | none => exact ⟨s, place, rfl, rfl, h, fun u => Or.inl rfl⟩
  | some t =>
    have ht : place t = some (.queue .waiters) :=
      (h.queues _ _).mp (List.mem_of_find?_eq_some hfind)
    obtain ⟨s', hwake, hcur, h'⟩ := (h.listDelete ht).wakeUp (t := t) (by simp)
    rw [Function.update_idem] at h'
    refine ⟨s', _, hwake, hcur, h', fun u => ?_⟩
    by_cases hu : u = t
    · simp [hu, ht]
    · simp [hu]

end Placed

end Sched

/-! ## Runs -/

/-- A scheduler at work: the tasks created so far, and which of them is the idle one. -/
structure Threads extends Sched where
  created : List TaskId
  idle : TaskId

/-- The atomic steps. `wakeUp q t` is `list_delete(&t->node)` and `scheduler_wake_up(t)`. -/
inductive SchedOp
  | schedule
  | queueNew (t : TaskId) (prio : ℤ)
  | exit (status : Int16)
  | sleepOn (q : WaitQueue) (sleepData : Pid)
  | wakeUp (q : WaitQueue) (t : TaskId)

namespace Threads

/-- The steps that happen: a new task has a structure of its own, the idle task only executes `hlt`,
and a task that is woken up sleeps on the queue. -/
def Admits (c : Threads) : SchedOp → Prop
  | .schedule => True
  | .queueNew t _ => t ∉ c.created
  | .exit _ => c.current ≠ some c.idle
  | .sleepOn _ _ => c.current ≠ some c.idle
  | .wakeUp q t => t ∈ c.queues q

instance (c : Threads) : DecidablePred c.Admits
  | .schedule => inferInstanceAs (Decidable True)
  | .queueNew _ _ => inferInstanceAs (Decidable (_ ∉ _))
  | .exit _ => inferInstanceAs (Decidable (_ ≠ _))
  | .sleepOn _ _ => inferInstanceAs (Decidable (_ ≠ _))
  | .wakeUp _ _ => inferInstanceAs (Decidable (_ ∈ _))

/-- The step takes effect; `none` if an assertion fails. -/
def exec (c : Threads) : SchedOp → Option Threads
  | .schedule => c.toSched.schedule.map fun s => { c with toSched := s }
  | .queueNew t prio =>
    (c.schedulerQueueNew t prio).map fun (s, _) => { c with toSched := s, created := t :: c.created }
  | .exit status => (c.schedulerExit status).map fun s => { c with toSched := s }
  | .sleepOn q sleepData =>
    (c.schedulerSleepOn (some q) sleepData).map fun s => { c with toSched := s }
  | .wakeUp q t =>
    ((c.listDelete q t).schedulerWakeUp (some t)).map fun s => { c with toSched := s }

/-- One atomic step. -/
def step (c : Threads) (op : SchedOp) : Option Threads :=
  if c.Admits op then c.exec op else none

/-- The scheduler after `scheduler_initialize` and `kthread_initialize`. -/
def boot (tasks : TaskId → Task) (main idle : TaskId) : Option Threads :=
  (kthreadInitialize (schedulerInitialize tasks main) idle).map fun s =>
    { s with created := [idle, main], idle := idle }

/-- A step by which the current task sleeps or exits had a ready task to switch to, and leaves it in
its queue or among the zombies, not current. The main task, of pid 0, does not exit. -/
def SwitchedAway (c c' : Threads) : SchedOp → Prop
  | .sleepOn q _ => ∀ cur, c.current = some cur →
      c.ready ≠ [] ∧ cur ∈ c'.queues q ∧ c'.current ≠ some cur
  | .exit _ => ∀ cur, c.current = some cur → (c.tasks cur).pid ≠ 0 →
      c.ready ≠ [] ∧ cur ∈ c'.zombies ∧ c'.current ≠ some cur
  | _ => True

/-- The places of the tasks of a run. -/
structure Assigned (c : Threads) (place : TaskId → Option Place) : Prop where
  placed : c.Placed place
  current : ∀ t, c.current = some t ↔ place t = some .current
  created : ∀ t, t ∈ c.created ↔ place t ≠ none
  running : ∃ cur, c.current = some cur
  idle : place c.idle = some .current ∨ place c.idle = some .ready

variable {c : Threads} {place : TaskId → Option Place}

namespace Assigned

/-- An assignment of places is a partition. -/
theorem partition (h : c.Assigned place) : c.Partition c.created := by
  have hat : ∀ t p, c.At t p ↔ place t = some p := by
    intro t p
    cases p with
    | current => exact h.current t
    | ready => exact h.placed.ready t
    | zombies => exact h.placed.zombies t
    | queue q => exact h.placed.queues q t
  refine ⟨fun t ht => ?_, fun t p hp => ?_, fun t p hp => ?_, h.placed.nodup_ready,
    h.placed.nodup_zombies, h.placed.nodup_queues⟩
  · obtain ⟨p, hp⟩ := Option.ne_none_iff_exists'.mp ((h.created t).mp ht)
    refine ⟨p, (hat t p).mpr hp, fun p' hp' => ?_⟩
    exact Option.some.inj (((hat t p').mp hp').symm.trans hp)
  · exact (h.created t).mpr (by simp [(hat t p).mp hp])
  · exact h.placed.state t p ((hat t p).mp hp)

/-- A task in another place is not current. -/
theorem current_ne {t : TaskId} {p : Place} (h : c.Assigned place) (ht : place t = some p)
    (hp : p ≠ .current) : c.current ≠ some t := by
  intro hc
  exact hp (Option.some.inj (ht.symm.trans ((h.current t).mp hc)))

/-- There is one current task. -/
theorem eq_of_current {t cur : TaskId} (h : c.Assigned place) (hcur : c.current = some cur)
    (ht : place t = some .current) : t = cur :=
  Option.some.inj (((h.current t).mpr ht).symm.trans hcur)

/-- The idle task is ready while another one is current. -/
theorem idle_ready (h : c.Assigned place) (hidle : c.current ≠ some c.idle) :
    place c.idle = some .ready :=
  h.idle.resolve_left fun hi => hidle ((h.current _).mpr hi)

/-- The switch that ends `scheduler_sleep_on` and `scheduler_exit`: the task `prev` is already in
another place, nobody is current, and the idle task is ready. -/
theorem switch {s : Sched} {prev : TaskId} {p : Place} (hs : s.Placed place)
    (hcur : s.current = some prev) (hprev : place prev = some p) (hp : p.state ≠ .running)
    (hready : p ≠ .ready) (hnone : ∀ t, place t ≠ some .current)
    (hcreated : ∀ t, t ∈ c.created ↔ place t ≠ none) (hidle : place c.idle = some .ready) :
    ∃ s' place', s.schedule = some s' ∧ Assigned { c with toSched := s' } place' ∧
      place' prev = some p := by
  obtain ⟨next, ready, hr⟩ :=
    List.exists_cons_of_ne_nil (List.ne_nil_of_mem ((hs.ready _).mpr hidle))
  obtain ⟨s', hsched, hcur', hs'⟩ := hs.schedule_of_away hcur (by rwa [hs.state _ _ hprev]) hr
  have hnext : place next = some .ready := (hs.ready next).mp (by simp [hr])
  have hne : prev ≠ next := by
    rintro rfl
    exact hready (Option.some.inj (hprev.symm.trans hnext))
  refine ⟨s', _, hsched, ⟨hs', fun t => ?_, fun t => ?_, ⟨next, hcur'⟩, ?_⟩, by simp [hne, hprev]⟩
  · by_cases ht : t = next
    · simp [ht, hcur']
    · simp [ht, hcur', hnone, Ne.symm ht]
  · by_cases ht : t = next
    · simp [ht, hcreated, hnext]
    · simp [ht, hcreated]
  · by_cases hi : c.idle = next
    · simp [hi]
    · simp [hi, hidle]

theorem exec_schedule (h : c.Assigned place) :
    ∃ c' place', c.exec .schedule = some c' ∧ c'.Assigned place' := by
  obtain ⟨prev, hcur⟩ := h.running
  have hprev := (h.current prev).mp hcur
  cases hr : c.ready with
  | nil =>
    -- Nobody else is ready, and the task goes on.
    refine ⟨c, place, ?_, h⟩
    simp [exec, Sched.schedule, hcur, hr]
  | cons next ready =>
    obtain ⟨s', hsched, hcur', hs'⟩ := h.placed.schedule_of_running hcur hprev hr
    -- The first of the ready tasks and the one before it trade places.
    have hnext : place next = some .ready := (h.placed.ready next).mp (by simp [hr])
    have hne : prev ≠ next := by
      rintro rfl
      simp [hprev] at hnext
    refine ⟨{ c with toSched := s' }, _, by simp [exec, hsched], hs', fun t => ?_, fun t => ?_,
      ⟨next, hcur'⟩, ?_⟩
    · by_cases ht : t = next
      · simp [ht, hcur']
      · by_cases ht' : t = prev
        · subst ht'
          simp [ht, hcur', Ne.symm ht]
        · have hcur'' := h.current t
          rw [hcur] at hcur''
          simpa [ht, ht', hcur', Ne.symm ht, Ne.symm ht'] using hcur''
    · by_cases ht : t = next
      · simp [ht, h.created, hnext]
      · by_cases ht' : t = prev
        · simp [ht', h.created, hprev, hne]
        · simp [ht, ht', h.created]
    · by_cases hi : c.idle = next
      · simp [hi]
      · by_cases hi' : c.idle = prev
        · simp [hi', hne]
        · simpa [hi, hi'] using h.idle

theorem exec_queueNew {t : TaskId} {prio : ℤ} (h : c.Assigned place) (ht : t ∉ c.created) :
    ∃ c' place', c.exec (.queueNew t prio) = some c' ∧ c'.Assigned place' := by
  obtain ⟨cur, hcur⟩ := h.running
  have hnone : place t = none := by
    simpa using mt (h.created t).mpr ht
  obtain ⟨s', hnew, hcur', hs'⟩ := h.placed.queueNew hcur hnone prio
  refine ⟨{ c with toSched := s', created := t :: c.created }, _, by simp [exec, hnew], hs',
    fun u => ?_, fun u => ?_, ⟨cur, hcur'.trans hcur⟩, ?_⟩
  · rw [hcur']
    exact (h.current u).trans (Sched.update_place_iff (by simp [hnone]) (by simp) u)
  · by_cases hu : u = t
    · simp [hu]
    · simp [hu, h.created]
  · have hi : c.idle ≠ t := by
      rintro rfl
      simpa [hnone] using h.idle
    simpa [hi] using h.idle

theorem exec_sleepOn {q : WaitQueue} {sleepData : Pid} (h : c.Assigned place)
    (hidle : c.current ≠ some c.idle) :
    ∃ c' place', c.exec (.sleepOn q sleepData) = some c' ∧ c'.Assigned place' ∧
      c.SwitchedAway c' (.sleepOn q sleepData) := by
  obtain ⟨cur, hcur⟩ := h.running
  have hplace := (h.current cur).mp hcur
  have hne : c.idle ≠ cur := fun he => hidle (he ▸ hcur)
  have hready := h.idle_ready hidle
  have hleft : Function.update place cur none cur = none := by simp
  -- The task leaves its place, changes, and gets one on the queue.
  have hs := ((h.placed.leave hplace).modify hleft fun task =>
    { task with state := .waiting, waitState := sleepData }).listAdd q hleft (by simp [Sched.modify])
  rw [Function.update_idem] at hs
  -- No task has the processor until the switch.
  have hnone : ∀ t, Function.update place cur (some (.queue q)) t ≠ some .current := by
    intro t
    by_cases ht : t = cur
    · simp [ht]
    · simpa [ht] using fun hc => ht (h.eq_of_current hcur hc)
  have hcreated : ∀ t, t ∈ c.created ↔ Function.update place cur (some (.queue q)) t ≠ none := by
    intro t
    by_cases ht : t = cur
    · simp [ht, h.created, hplace]
    · simp [ht, h.created]
  obtain ⟨s', place', hsched, h', hprev⟩ := switch hs hcur (Function.update_self ..)
    (by simp [Place.state]) (by simp) hnone hcreated (by simp [hne, hready])
  refine ⟨_, place', by simp [exec, Sched.schedulerSleepOn, hcur, hsched], h', fun u hu => ?_⟩
  obtain rfl : cur = u := Option.some.inj (hcur.symm.trans hu)
  exact ⟨List.ne_nil_of_mem ((h.placed.ready _).mpr hready), (h'.placed.queues q cur).mpr hprev,
    h'.current_ne hprev (by simp)⟩

theorem exec_exit {status : Int16} (h : c.Assigned place) (hidle : c.current ≠ some c.idle) :
    ∃ c' place', c.exec (.exit status) = some c' ∧ c'.Assigned place' ∧
      c.SwitchedAway c' (.exit status) := by
  obtain ⟨cur, hcur⟩ := h.running
  have hplace := (h.current cur).mp hcur
  have hready := h.idle_ready hidle
  by_cases hpid : (c.tasks cur).pid = 0
  · -- The task with the pid 0 cannot exit.
    refine ⟨c, place, by simp [exec, Sched.schedulerExit, hcur, hpid], h, fun u hu hne => ?_⟩
    obtain rfl : cur = u := Option.some.inj (hcur.symm.trans hu)
    exact absurd hpid hne
  · have hleft : Function.update place cur none cur = none := by simp
    have hs := ((h.placed.leave hplace).modify hleft fun task =>
      { task with state := .zombie, status := status }).addZombie hleft (by simp [Sched.modify])
    rw [Function.update_idem] at hs
    -- A parent that waits for it becomes ready.
    obtain ⟨s₁, place₁, hwake, hcur₁, hs₁, hmove⟩ := hs.wakeWaiter cur
    have hcurrent : place₁ cur = some .zombies := by
      simpa using hmove cur
    have hnone : ∀ t, place₁ t ≠ some .current := by
      intro t ht
      by_cases htc : t = cur
      · simp [htc, hcurrent] at ht
      · have hc : some Place.current = place t := by simpa [htc, ht] using hmove t
        exact htc (h.eq_of_current hcur hc.symm)
    -- Every task still has a place, the woken one another.
    have hcreated : ∀ t, t ∈ c.created ↔ place₁ t ≠ none := by
      intro t
      by_cases htc : t = cur
      · simp [htc, h.created, hplace, hcurrent]
      · rcases hmove t with hm | ⟨hq, hr⟩
        · simp [hm, htc, h.created]
        · have hq' : place t = some (.queue .waiters) := by simpa [htc] using hq
          simp [h.created, hq', hr]
    have hidle₁ : place₁ c.idle = some .ready := by
      have hne : c.idle ≠ cur := fun he => hidle (he ▸ hcur)
      simpa [hne, hready] using hmove c.idle
    obtain ⟨s', place', hsched, h', hprev⟩ := switch hs₁ (hcur₁.trans hcur) hcurrent
      (by simp [Place.state]) (by simp) hnone hcreated hidle₁
    refine ⟨{ c with toSched := s' }, place', ?_, h', fun u hu _ => ?_⟩
    · simp [exec, Sched.schedulerExit, hcur, hpid, hwake, hsched]
    · obtain rfl : cur = u := Option.some.inj (hcur.symm.trans hu)
      exact ⟨List.ne_nil_of_mem ((h.placed.ready _).mpr hready), (h'.placed.zombies cur).mpr hprev,
        h'.current_ne hprev (by simp)⟩

theorem exec_wakeUp {q : WaitQueue} {t : TaskId} (h : c.Assigned place) (ht : t ∈ c.queues q) :
    ∃ c' place', c.exec (.wakeUp q t) = some c' ∧ c'.Assigned place' := by
  have hplace := (h.placed.queues q t).mp ht
  obtain ⟨s', hwake, hcur, hs'⟩ := (h.placed.listDelete hplace).wakeUp (t := t) (by simp)
  rw [Function.update_idem] at hs'
  obtain ⟨cur, hrun⟩ := h.running
  refine ⟨{ c with toSched := s' }, _, by simp [exec, hwake], hs', fun u => ?_, fun u => ?_,
    ⟨cur, hcur.trans hrun⟩, ?_⟩
  · rw [hcur]
    exact (h.current u).trans (Sched.update_place_iff (by simp [hplace]) (by simp) u)
  · by_cases hu : u = t
    · simp [hu, h.created, hplace]
    · simp [hu, h.created]
  · by_cases hi : c.idle = t
    · simp [hi]
    · simpa [hi] using h.idle

/-- Every step that happens succeeds and keeps the tasks in their places. -/
theorem exec {op : SchedOp} (h : c.Assigned place) (ha : c.Admits op) :
    ∃ c' place', c.exec op = some c' ∧ c'.Assigned place' ∧ c.SwitchedAway c' op := by
  cases op with
  | schedule =>
    obtain ⟨c', place', hc, h'⟩ := h.exec_schedule
    exact ⟨c', place', hc, h', trivial⟩
  | queueNew t prio =>
    obtain ⟨c', place', hc, h'⟩ := h.exec_queueNew ha
    exact ⟨c', place', hc, h', trivial⟩
  | exit status => exact h.exec_exit ha
  | sleepOn q sleepData => exact h.exec_sleepOn ha
  | wakeUp q t =>
    obtain ⟨c', place', hc, h'⟩ := h.exec_wakeUp ha
    exact ⟨c', place', hc, h', trivial⟩

/-- A step of the scheduler keeps the tasks in their places. -/
theorem of_exec {op : SchedOp} {c' : Threads} (h : c.Assigned place) (ha : c.Admits op)
    (hexec : c.exec op = some c') : ∃ place', c'.Assigned place' := by
  obtain ⟨c'', place', hexec', h', -⟩ := h.exec ha
  obtain rfl : c'' = c' := Option.some.inj (hexec'.symm.trans hexec)
  exact ⟨place', h'⟩

theorem step {op : SchedOp} {c' : Threads} (h : c.Assigned place) (hs : c.step op = some c') :
    ∃ place', c'.Assigned place' := by
  rw [Threads.step] at hs
  split_ifs at hs with ha
  exact h.of_exec ha hs

end Assigned

/-- The main task is current and the idle task is ready. -/
theorem assigned_boot {tasks : TaskId → Task} {main idle : TaskId} (hne : main ≠ idle) :
    ∃ c place, boot tasks main idle = some c ∧ c.Assigned place := by
  have hinit : (schedulerInitialize tasks main).Placed
      (Function.update (fun _ => none) main (some .current)) := by
    refine Sched.Placed.enter ⟨?_, ?_, ?_, ?_, ?_, ?_, ?_⟩ rfl ?_ <;> simp [schedulerInitialize]
  obtain ⟨s', hnew, hcur, hs'⟩ := hinit.queueNew (t := idle) rfl (by simp [hne.symm]) (-32767)
  refine ⟨{ s' with created := [idle, main], idle := idle }, _, ?_, hs', fun t => ?_, fun t => ?_,
    ⟨main, hcur⟩, ?_⟩
  · simp [boot, kthreadInitialize, hnew]
  · rw [hcur, ← Sched.update_place_iff (by simp [hne.symm]) (by simp), Function.update_apply]
    by_cases ht : t = main
    · simp [ht, schedulerInitialize]
    · simp [ht, schedulerInitialize, Ne.symm ht]
  · by_cases ht : t = idle
    · simp [ht]
    · by_cases ht' : t = main
      · simp [ht', hne]
      · simp [ht, ht']
  · simp

theorem assigned_of_boot {tasks : TaskId → Task} {main idle : TaskId} (hne : main ≠ idle)
    (hboot : boot tasks main idle = some c) : ∃ place, c.Assigned place := by
  obtain ⟨c₀, place, hboot₀, h⟩ := @assigned_boot tasks main idle hne
  obtain rfl : c₀ = c := Option.some.inj (hboot₀.symm.trans hboot)
  exact ⟨place, h⟩

end Threads

/-- **Every task is in one place.** In every run from the initialised scheduler, whatever the
priorities, pids and sleep data: the tasks are partitioned among `current`, the ready list, the wait
queues and the zombies, as their states say; every step that happens succeeds, and a task that just
slept or exited had a ready task to switch to and is not current. -/
theorem scheduler_partition (tasks : TaskId → Task) (main idle : TaskId) (hne : main ≠ idle)
    (ops : List SchedOp) (c₀ c : Threads) (hboot : Threads.boot tasks main idle = some c₀)
    (hrun : run Threads.step c₀ ops = some c) :
    c.Partition c.created ∧
      ∀ op, c.Admits op → ∃ c', c.step op = some c' ∧ c.SwitchedAway c' op ∧
        c'.Partition c'.created := by
  obtain ⟨place, h⟩ : ∃ place, c.Assigned place := by
    refine run_invariant Threads.step (P := fun c => ∃ place, c.Assigned place)
      (fun c op c' hc hstep => ?_) (Threads.assigned_of_boot hne hboot) hrun
    obtain ⟨place, h⟩ := hc
    exact h.step hstep
  refine ⟨h.partition, fun op ha => ?_⟩
  obtain ⟨c', place', hexec, h', hswitch⟩ := h.exec ha
  exact ⟨c', by rw [Threads.step, if_pos ha, hexec], hswitch, h'.partition⟩

/-- A run in which a task sleeps, is woken up and exits while the main task waits for it. -/
theorem scheduler_partition_wait :
    ∃ c₀ c, Threads.boot (fun _ => ⟨.ready, 0, 0, 0, 0, 0⟩) 0 1 = some c₀ ∧
      run Threads.step c₀ [.queueNew 2 5, .schedule, .sleepOn (.device 0) 0, .sleepOn .waiters (-1),
        .wakeUp (.device 0) 2, .schedule, .exit 3] = some c ∧
      c.Partition c.created ∧
      ∀ op, c.Admits op → ∃ c', c.step op = some c' ∧ c.SwitchedAway c' op ∧
        c'.Partition c'.created := by
  have hsome : ((Threads.boot (fun _ => ⟨.ready, 0, 0, 0, 0, 0⟩) 0 1).bind fun c₀ =>
      run Threads.step c₀ [.queueNew 2 5, .schedule, .sleepOn (.device 0) 0, .sleepOn .waiters (-1),
        .wakeUp (.device 0) 2, .schedule, .exit 3]).isSome := by
    decide
  obtain ⟨c, hc⟩ := Option.isSome_iff_exists.mp hsome
  obtain ⟨c₀, hboot, hrun⟩ := Option.bind_eq_some_iff.mp hc
  exact ⟨c₀, c, hboot, hrun, scheduler_partition _ 0 1 (by decide) _ c₀ c hboot hrun⟩

end I80k.Kernel

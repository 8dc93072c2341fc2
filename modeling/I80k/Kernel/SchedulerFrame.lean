import I80k.Kernel.Scheduler

/-!
# What the operations of the scheduler leave alone

An operation writes to the states of a few tasks and moves them between lists. What a task is, and what it
waits for, stays, and so do the lists that the operation is not about.

## Main definitions

* `Sched.SameTasks`: the tasks are the same, but for their states

## Main results

* `Sched.schedule_frame`, `Sched.wakeUp_frame`: a switch, and a wake-up
* `Sched.exit_frame`, `Sched.sleepOn_frame`, `Sched.queueNew_frame`: an exit, a sleep on `waiters`, and a
  new task
* `Sched.exit_queues`, `Sched.sleepOn_queues`: the queues after an exit, and after a sleep
-/

namespace I80k.Kernel

namespace Sched

variable {s s' : Sched} {t cur : TaskId}

/-- The tasks are the same, but for their states. -/
structure SameTasks (s s' : Sched) : Prop where
  pid : ∀ t, (s'.tasks t).pid = (s.tasks t).pid
  parent : ∀ t, (s'.tasks t).parent = (s.tasks t).parent
  waitState : ∀ t, (s'.tasks t).waitState = (s.tasks t).waitState

theorem SameTasks.refl (s : Sched) : SameTasks s s := ⟨fun _ => rfl, fun _ => rfl, fun _ => rfl⟩

theorem SameTasks.trans {s'' : Sched} (h : SameTasks s s') (h' : SameTasks s' s'') : SameTasks s s'' where
  pid t := (h'.pid t).trans (h.pid t)
  parent t := (h'.parent t).trans (h.parent t)
  waitState t := (h'.waitState t).trans (h.waitState t)

/-- A write to other fields of a task. -/
theorem sameTasks_modify {f : Task → Task} (hpid : ∀ x, (f x).pid = x.pid)
    (hparent : ∀ x, (f x).parent = x.parent) (hwait : ∀ x, (f x).waitState = x.waitState) :
    SameTasks s (s.modify t f) := by
  have hfield : ∀ {α : Type} (g : Task → α), (∀ x, g (f x) = g x) →
      ∀ u, g ((s.modify t f).tasks u) = g (s.tasks u) := by
    intro α g hg u
    by_cases hu : u = t
    · subst hu
      simp [modify, hg]
    · simp [modify, hu]
  exact ⟨hfield Task.pid hpid, hfield Task.parent hparent, hfield Task.waitState hwait⟩

theorem sameTasks_setState (state : TaskState) : SameTasks s (s.setState t state) :=
  sameTasks_modify (fun _ => rfl) (fun _ => rfl) fun _ => rfl

theorem putReady_frame (h : s.putReady t = some s') :
    s'.tasks = s.tasks ∧ s'.zombies = s.zombies ∧ s'.queues = s.queues ∧ s'.current = s.current := by
  obtain ⟨ready, -, rfl⟩ := Option.map_eq_some_iff.mp h
  exact ⟨rfl, rfl, rfl, rfl⟩

/-- A switch changes states and the ready list. -/
theorem schedule_frame (h : s.schedule = some s') :
    SameTasks s s' ∧ s'.zombies = s.zombies ∧ s'.queues = s.queues := by
  cases hcur : s.current with
  | none =>
    obtain rfl : s = s' := by simpa [schedule, hcur] using h
    exact ⟨.refl s, rfl, rfl⟩
  | some prev =>
    cases hready : s.ready with
    | nil =>
      obtain rfl : s = s' := by simpa [schedule, hcur, hready] using h
      exact ⟨.refl s, rfl, rfl⟩
    | cons next ready =>
      simp only [schedule, hcur, hready, Option.bind_eq_bind] at h
      split_ifs at h
      · -- The task that is switched away from goes back to the ready list.
        obtain ⟨s₁, hput, hs'⟩ := Option.bind_eq_some_iff.mp h
        obtain rfl := Option.some.inj hs'
        obtain ⟨htasks, hz, hq, -⟩ := putReady_frame hput
        have hset := @sameTasks_setState { s with ready, current := some next } prev .ready
        have hput : SameTasks s s₁ := by
          refine ⟨fun t => ?_, fun t => ?_, fun t => ?_⟩
          · rw [htasks]
            exact hset.pid t
          · rw [htasks]
            exact hset.parent t
          · rw [htasks]
            exact hset.waitState t
        exact ⟨hput.trans (sameTasks_setState .running), hz, hq⟩
      · obtain rfl := Option.some.inj h
        have hset := @sameTasks_setState { s with ready, current := some next } next .running
        exact ⟨⟨hset.pid, hset.parent, hset.waitState⟩, rfl, rfl⟩

theorem waitsFor_congr (h : SameTasks s s') : s'.WaitsFor cur t ↔ s.WaitsFor cur t := by
  unfold WaitsFor
  simp only [h.pid, h.parent, h.waitState]

theorem wakeUp_frame (h : s.schedulerWakeUp (some t) = some s') :
    SameTasks s s' ∧ s'.zombies = s.zombies ∧ s'.queues = s.queues := by
  obtain ⟨htasks, hz, hq, -⟩ := putReady_frame h
  have hset := @sameTasks_setState s t .ready
  exact ⟨⟨fun u => htasks ▸ hset.pid u, fun u => htasks ▸ hset.parent u,
    fun u => htasks ▸ hset.waitState u⟩, hz, hq⟩

/-- A wake-up writes to the task that is woken up. -/
theorem wakeUp_tasks {u : TaskId} (h : s.schedulerWakeUp (some t) = some s') (hu : u ≠ t) :
    s'.tasks u = s.tasks u := by
  rw [(putReady_frame h).1]
  simp [setState, modify, hu]

/-- The first waiter for a task leaves the queue. -/
theorem wakeWaiter_frame (h : s.wakeWaiter cur = some s') :
    SameTasks s s' ∧ s'.zombies = s.zombies ∧
      s'.queues .waiters = (s.queues .waiters).eraseP fun t => s.WaitsFor cur t := by
  unfold wakeWaiter at h
  cases hfind : (s.queues .waiters).find? fun t => s.WaitsFor cur t with
  | none =>
    obtain rfl : s = s' := by simpa [hfind] using h
    refine ⟨.refl s, rfl, ?_⟩
    rw [List.eraseP_of_forall_not (List.find?_eq_none.mp hfind)]
  | some t =>
    rw [hfind] at h
    obtain ⟨hsame, hz, hq⟩ := wakeUp_frame h
    refine ⟨⟨hsame.pid, hsame.parent, hsame.waitState⟩, hz, ?_⟩
    obtain ⟨ht, as, bs, hsplit, hno⟩ := List.find?_eq_some_iff_append.mp hfind
    have hnot : t ∉ as := fun hmem => by simpa [ht] using hno t hmem
    rw [hq]
    simp only [listDelete, Function.update_self, hsplit]
    rw [List.erase_append_right _ hnot, List.eraseP_append_right _ (by simpa using hno)]
    simp [ht]

/-- An exit makes the current task a zombie, and takes the first of its waiters from the queue. -/
theorem exit_frame {status : Int16} (hcur : s.current = some cur) (hpid : (s.tasks cur).pid ≠ 0)
    (h : s.schedulerExit status = some s') :
    SameTasks s s' ∧ s'.zombies = s.zombies ++ [cur] ∧
      s'.queues .waiters = (s.queues .waiters).eraseP fun t => s.WaitsFor cur t := by
  simp only [schedulerExit, hcur, if_neg hpid, Option.bind_eq_bind] at h
  obtain ⟨s₁, hwake, hsched⟩ := Option.bind_eq_some_iff.mp h
  obtain ⟨hsame, hz, hq⟩ := wakeWaiter_frame hwake
  obtain ⟨hsame', hz', hq'⟩ := schedule_frame hsched
  have hzombie : SameTasks s (s.modify cur fun task => { task with state := .zombie, status := status }) :=
    sameTasks_modify (fun _ => rfl) (fun _ => rfl) fun _ => rfl
  -- The waiters for the task are those before the exit.
  have hbefore : ∀ {s₀ : Sched}, SameTasks s₀ s₁ →
      s₁.queues .waiters = (s₀.queues .waiters).eraseP (fun t => s₀.WaitsFor cur t) →
      SameTasks s s₀ → s₀.queues = s.queues →
      SameTasks s s₁ ∧ s₁.queues .waiters = (s.queues .waiters).eraseP fun t => s.WaitsFor cur t := by
    intro s₀ hsame₁ herase hsame₀ hqueues
    refine ⟨hsame₀.trans hsame₁, ?_⟩
    simp only [waitsFor_congr hsame₀, hqueues] at herase
    exact herase
  obtain ⟨hsame₁, herase⟩ := hbefore hsame hq ⟨hzombie.pid, hzombie.parent, hzombie.waitState⟩ rfl
  refine ⟨hsame₁.trans hsame', hz'.trans hz, ?_⟩
  rw [hq', herase]

/-- A task that goes to sleep is the last one of its queue, with what it waits for. -/
theorem sleepOn_frame {pid : Pid} (hcur : s.current = some cur)
    (h : s.schedulerSleepOn (some .waiters) pid = some s') :
    s'.zombies = s.zombies ∧ s'.queues .waiters = s.queues .waiters ++ [cur] ∧
      SameTasks (s.modify cur fun task => { task with waitState := pid }) s' := by
  simp only [schedulerSleepOn, hcur, Option.bind_some] at h
  obtain ⟨hsame, hz, hq⟩ := schedule_frame h
  refine ⟨hz, ?_, SameTasks.trans ?_ ⟨hsame.pid, hsame.parent, hsame.waitState⟩⟩
  · rw [hq]
    simp [listAdd, modify]
  · -- Only the state of the task differs.
    have hfield : ∀ {α : Type} (g : Task → α), (∀ x : Task, ∀ state, g { x with state } = g x) → ∀ u,
        g ((s.modify cur fun task => { task with state := .waiting, waitState := pid }).tasks u) =
          g ((s.modify cur fun task => { task with waitState := pid }).tasks u) := by
      intro α g hg u
      by_cases hu : u = cur
      · subst hu
        simp only [modify, Function.update_self]
        exact hg { s.tasks u with waitState := pid } .waiting
      · simp [modify, hu]
    exact ⟨hfield Task.pid fun _ _ => rfl, hfield Task.parent fun _ _ => rfl,
      hfield Task.waitState fun _ _ => rfl⟩

/-- A sleep adds the task to its queue, and to no other one. -/
theorem sleepOn_queues {queue : WaitQueue} {data : Pid} (hcur : s.current = some cur)
    (h : s.schedulerSleepOn (some queue) data = some s') :
    s'.queues = Function.update s.queues queue (s.queues queue ++ [cur]) := by
  simp only [schedulerSleepOn, hcur, Option.bind_some] at h
  exact (schedule_frame h).2.2

/-- An exit takes tasks from `waiters` only. -/
theorem exit_queues {status : Int16} {queue : WaitQueue} (hqueue : queue ≠ .waiters)
    (h : s.schedulerExit status = some s') : s'.queues queue = s.queues queue := by
  rcases exit_cases h with rfl | ⟨cur, s₁, -, -, hwake, hsched⟩
  · rfl
  · rw [(schedule_frame hsched).2.2]
    unfold wakeWaiter at hwake
    split at hwake
    · exact Option.some.inj hwake ▸ rfl
    · rw [(wakeUp_frame hwake).2.2]
      simp [listDelete, modify, hqueue]

/-- A new task changes no other one, and is put on the ready list. -/
theorem queueNew_frame {prio : ℤ} {pid : Pid} (h : s.schedulerQueueNew t prio = some (s', pid)) :
    s'.zombies = s.zombies ∧ s'.queues = s.queues ∧ ∀ u ≠ t, s'.tasks u = s.tasks u := by
  unfold schedulerQueueNew at h
  obtain ⟨cur, -, h⟩ := Option.bind_eq_some_iff.mp h
  obtain ⟨s₁, hput, hs'⟩ := Option.bind_eq_some_iff.mp h
  obtain ⟨rfl, -⟩ := Prod.mk.inj (Option.some.inj hs')
  obtain ⟨htasks, hz, hq, -⟩ := putReady_frame hput
  refine ⟨hz, hq, fun u hu => ?_⟩
  rw [htasks]
  simp [modify, hu]

end Sched

end I80k.Kernel

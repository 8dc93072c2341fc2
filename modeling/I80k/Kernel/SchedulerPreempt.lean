import I80k.Kernel.Clk

/-!
# Going to sleep with interrupts enabled

A kernel thread calls `scheduler_sleep_on` with interrupts enabled, and the handler of the clock may run
between any two of its statements. The state of the task says that it waits before the task is on its
queue. A switch in between does not put it back on the ready list, as it does not run; and nothing points
to it any more.

## Main definitions

* `SleepAt`, `Preempt`: the statements of `scheduler_sleep_on`, and a scheduler whose tasks are inside of it
* `Preempt.Covered`: a task that is not current is on a list
* `Preempt.Unlinked`: the task waits, and is not on its queue yet
* `Preempt.SwitchesLinked`: the step is not a switch at that time

## Main results

* `Preempt.Places.covered`: the invariant says that no task is lost
* `no_task_lost_iff`: no task is lost as long as the clock does not switch at that time
-/

namespace I80k.Kernel

open StepSystem

/-- The statement of `scheduler_sleep_on` that comes next, after the test of its argument. -/
inductive SleepAt
  /-- `current->state = WAITING`. -/
  | state
  /-- `current->wait_state = sleep_data`. -/
  | data
  /-- `list_add_before(queue, &current->node)`. -/
  | link
  /-- `schedule()`. -/
  | schedule
  deriving DecidableEq

/-- A scheduler with a clock, whose tasks are stopped inside of `scheduler_sleep_on`. -/
structure Preempt extends Clk where
  created : List TaskId
  idle : TaskId
  /-- The next statement of the call that a task is inside of, with its arguments. -/
  call : TaskId → Option (SleepAt × WaitQueue × UInt64)

/-- The steps. `sleepOn` enters the call, and `next` is its next statement. `wakeUp q t` is
`list_delete(&t->node)` and `scheduler_wake_up(t)` by an interrupt handler. -/
inductive PreemptOp
  | sleepOn (queue : WaitQueue) (data : UInt64)
  | next
  | clock
  | queueNew (t : TaskId) (prio : ℤ)
  | exit (status : Int16)
  | wakeUp (queue : WaitQueue) (t : TaskId)

namespace Preempt

/-- The call that the current task is inside of. -/
def inCall (c : Preempt) : Option (SleepAt × WaitQueue × UInt64) := c.current.bind c.call

/-- The steps that happen: inside of a call a task can only be interrupted, or go on. The idle task only
executes `hlt`. -/
def Admits (c : Preempt) : PreemptOp → Prop
  | .sleepOn _ _ => c.inCall = none ∧ c.current ≠ some c.idle
  | .next => c.inCall ≠ none
  | .clock => True
  | .queueNew t _ => c.inCall = none ∧ t ∉ c.created
  | .exit _ => c.inCall = none ∧ c.current ≠ some c.idle
  | .wakeUp q t => t ∈ c.queues q

instance (c : Preempt) : DecidablePred c.Admits
  | .sleepOn _ _ => inferInstanceAs (Decidable (_ ∧ _))
  | .next => inferInstanceAs (Decidable (_ ≠ _))
  | .clock => inferInstanceAs (Decidable True)
  | .queueNew _ _ => inferInstanceAs (Decidable (_ ∧ _))
  | .exit _ => inferInstanceAs (Decidable (_ ∧ _))
  | .wakeUp _ _ => inferInstanceAs (Decidable (_ ∈ _))

def setCall (c : Preempt) (t : TaskId) (call : Option (SleepAt × WaitQueue × UInt64)) : Preempt :=
  { c with call := Function.update c.call t call }

def withSched (c : Preempt) (s : Sched) : Preempt := { c with toSched := s }

/-- The next statement of the call of `cur`. -/
def statement (c : Preempt) (cur : TaskId) (queue : WaitQueue) (data : UInt64) : SleepAt → Option Preempt
  | .state => some ((c.withSched (c.setState cur .waiting)).setCall cur (some (.data, queue, data)))
  | .data =>
    let s := c.modify cur fun task => { task with waitState := asPid data }
    some ({ c.withSched s with deadline := Function.update c.deadline cur data }.setCall cur
      (some (.link, queue, data)))
  | .link => some ((c.withSched (c.listAdd queue cur)).setCall cur (some (.schedule, queue, data)))
  | .schedule => c.toSched.schedule.map fun s => (c.withSched s).setCall cur none

/-- The step takes effect. -/
def exec (c : Preempt) : PreemptOp → Option Preempt
  | .sleepOn queue data => c.current.map fun cur => c.setCall cur (some (.state, queue, data))
  | .next => c.current.bind fun cur => (c.call cur).bind fun (at', queue, data) =>
    c.statement cur queue data at'
  | .clock => c.clkHandler.map fun k => { c with toClk := k }
  | .queueNew t prio =>
    (c.schedulerQueueNew t prio).map fun (s, _) => { c.withSched s with created := t :: c.created }
  | .exit status => (c.schedulerExit status).map c.withSched
  | .wakeUp queue t => ((c.listDelete queue t).schedulerWakeUp (some t)).map c.withSched

/-- One step. -/
def step (c : Preempt) (op : PreemptOp) : Option Preempt :=
  if c.Admits op then c.exec op else none

/-- The kernel after `scheduler_initialize`, `kthread_initialize` and `clk_initialize`. -/
def boot (tasks : TaskId → Task) (main idle : TaskId) (clockIncMs : ℕ) : Option Preempt :=
  (kthreadInitialize (schedulerInitialize tasks main) idle).map fun s =>
    { toSched := s, clockIncMs, ticks := 0, nowNs := 0, deadline := fun _ => 0
      created := [idle, main], idle, call := fun _ => none }

/-- Every task that is not current is on the ready list, on a wait queue, or on `zombies`. -/
def Covered (c : Preempt) : Prop :=
  ∀ t ∈ c.created, c.current = some t ∨ t ∈ c.ready ∨ (∃ q, t ∈ c.queues q) ∨ t ∈ c.zombies

/-- The task has said that it waits, and is not on its queue yet. -/
def Unlinked (c : Preempt) (t : TaskId) : Prop :=
  ∃ queue data, c.call t = some (.data, queue, data) ∨ c.call t = some (.link, queue, data)

/-- The step is not a tick that switches tasks while the current one is in between. -/
def SwitchesLinked (c : Preempt) : PreemptOp → Prop
  | .clock => (c.ticks + 1) &&& 1 = 0 → ∀ cur, c.current = some cur → ¬ c.Unlinked cur
  | _ => True

/-! ## The invariant -/

/-- The tasks have their places, but for the current one while it is in between. -/
structure Places (c : Preempt) (place : TaskId → Option Place) : Prop where
  placed : c.Placed place
  running : ∃ cur, c.current = some cur ∧ cur ∈ c.created
  current : ∀ t, place t = some .current → c.current = some t
  created : ∀ t, t ∈ c.created ↔ place t ≠ none ∨ c.Unlinked t
  idle : place c.idle = some .current ∨ place c.idle = some .ready
  idleCall : c.call c.idle = none
  /-- Only the current task is in between, and it is on no list. -/
  unlinked : ∀ t, c.Unlinked t → c.current = some t ∧ place t = none ∧ (c.tasks t).state = .waiting

/-- A task that has not begun to sleep runs. -/
structure Kept (c : Preempt) (place : TaskId → Option Place) : Prop extends c.Places place where
  outside : ∀ t, c.current = some t → (∀ at' queue data, c.call t = some (at', queue, data) →
    at' = .state) → place t = some .current

variable {c c' : Preempt} {place : TaskId → Option Place} {cur : TaskId}

theorem Places.covered (h : c.Places place) : c.Covered := by
  intro t ht
  rcases (h.created t).mp ht with hplace | hun
  · obtain ⟨p, hp⟩ := Option.ne_none_iff_exists'.mp hplace
    cases p with
    | current => exact Or.inl (h.current t hp)
    | ready => exact Or.inr (Or.inl ((h.placed.ready t).mpr hp))
    | zombies => exact Or.inr (Or.inr (Or.inr ((h.placed.zombies t).mpr hp)))
    | queue q => exact Or.inr (Or.inr (Or.inl ⟨q, (h.placed.queues q t).mpr hp⟩))
  · exact Or.inl (h.unlinked t hun).1

/-- The idle task is ready while another one is current. -/
theorem Places.idle_ready (h : c.Places place) (hidle : c.current ≠ some c.idle) :
    place c.idle = some .ready :=
  h.idle.resolve_left fun hi => hidle (h.current _ hi)

/-- A task outside of the call runs. -/
theorem Kept.place_of_outside (h : c.Kept place) (hcur : c.current = some cur) (hcall : c.inCall = none) :
    place cur = some .current := by
  refine h.outside cur hcur fun at' queue data hc => ?_
  simp [inCall, hcur, hc] at hcall

/-! ## A switch -/

/-- The places after a switch from `cur` to `next`: a task that ran is ready again. -/
def switched (place : TaskId → Option Place) (cur next t : TaskId) : Option Place :=
  if t = next then some .current
  else if t = cur ∧ place cur = some .current then some .ready
  else place t

/-- A switch from a task that has a place. -/
theorem placed_schedule {s : Sched} (h : s.Placed place) (hcur : s.current = some cur)
    (hplace : place cur ≠ none) :
    s.ready = [] ∧ s.schedule = some s ∨
      ∃ s' next, s.schedule = some s' ∧ s'.current = some next ∧ place next = some .ready ∧
        s'.Placed (switched place cur next) := by
  cases hr : s.ready with
  | nil => exact Or.inl ⟨rfl, by simp [Sched.schedule, hcur, hr]⟩
  | cons next ready =>
    have hnext : place next = some .ready := (h.ready next).mp (by simp [hr])
    right
    -- A task that runs goes back to the ready list; one that waits or has exited stays where it is.
    by_cases hrun : place cur = some .current
    · obtain ⟨s', hsched, hcur', h'⟩ := h.schedule_of_running hcur hrun hr
      refine ⟨s', next, hsched, hcur', hnext, ?_⟩
      convert h' using 1
      ext1 t
      by_cases htn : t = next
      · simp [switched, htn]
      · by_cases htc : t = cur
        · simp [switched, htc, htc ▸ htn, hrun]
        · simp [switched, htn, htc]
    · have hstate : (s.tasks cur).state ≠ .running := by
        obtain ⟨p, hp⟩ := Option.ne_none_iff_exists'.mp hplace
        rw [h.state cur p hp]
        cases p with
        | current => exact absurd hp hrun
        | ready => simp [Place.state]
        | zombies => simp [Place.state]
        | queue q => simp [Place.state]
      obtain ⟨s', hsched, hcur', h'⟩ := h.schedule_of_away hcur hstate hr
      refine ⟨s', next, hsched, hcur', hnext, ?_⟩
      convert h' using 1
      ext1 t
      by_cases htn : t = next
      · simp [switched, htn]
      · simp [switched, htn, hrun]

theorem switched_eq_none {next t : TaskId} (hnext : place next = some .ready) :
    switched place cur next t = none ↔ place t = none := by
  unfold switched
  split_ifs with htn hcur
  · simp [htn, hnext]
  · simp [hcur.1, hcur.2]
  · rfl

theorem Places.cur_mem (h : c.Places place) (hcur : c.current = some cur) : cur ∈ c.created := by
  obtain ⟨u, hu, hmem⟩ := h.running
  rwa [Option.some.inj (hcur.symm.trans hu)]

/-- If the current task is not in between, none is. -/
theorem Places.not_unlinked (h : c.Places place) (hcur : c.current = some cur)
    (hlinked : ¬ c.Unlinked cur) (t : TaskId) : ¬ c.Unlinked t := by
  intro ht
  have htc : c.current = some t := (h.unlinked t ht).1
  rw [Option.some.inj (hcur.symm.trans htc)] at hlinked
  exact hlinked ht

/-- A switch by a task that is not in between keeps the tasks in their places. The call of the task may
end with it. Only the idle task has no other one to switch to. -/
theorem Places.switch (h : c.Places place) (hcur : c.current = some cur) (hlinked : ¬ c.Unlinked cur)
    (call : TaskId → Option (SleepAt × WaitQueue × UInt64)) (hother : ∀ t ≠ cur, call t = c.call t)
    (hself : call cur = c.call cur ∨ call cur = none) :
    c.current = some c.idle ∧ c.toSched.schedule = some c.toSched ∨
      ∃ s' place', c.toSched.schedule = some s' ∧ Kept { c.withSched s' with call } place' := by
  have hplace : place cur ≠ none := ((h.created cur).mp (h.cur_mem hcur)).resolve_right hlinked
  have hnone := h.not_unlinked hcur hlinked
  rcases placed_schedule h.placed hcur hplace with ⟨hempty, hsched⟩ | ⟨s', next, hsched, hcur', hnext, h'⟩
  · left
    refine ⟨?_, hsched⟩
    by_contra hidle
    have hready := (h.placed.ready _).mpr (h.idle_ready hidle)
    simp [hempty] at hready
  · right
    have hun : ∀ t, ¬ Unlinked { c.withSched s' with call } t := by
      rintro t ⟨queue, data, hcall⟩
      by_cases ht : t = cur
      · rcases hself with hself | hself
        · exact hnone t ⟨queue, data, by simpa [ht, hself] using hcall⟩
        · simp [ht, hself] at hcall
      · exact hnone t ⟨queue, data, by simpa [hother t ht] using hcall⟩
    refine ⟨s', _, hsched, ⟨h', ⟨next, hcur', (h.created next).mpr (Or.inl (by simp [hnext]))⟩,
      fun t ht => ?_, fun t => ?_, ?_, ?_, fun t ht => absurd ht (hun t)⟩, fun t ht _ => ?_⟩
    · -- Nothing else is current.
      unfold switched at ht
      split_ifs at ht with htn htc
      · rw [htn]
        exact hcur'
      · simp at ht
      · have hsame := Option.some.inj (hcur.symm.trans (h.current t ht))
        exact absurd ⟨hsame.symm, hsame ▸ ht⟩ htc
    · show t ∈ c.created ↔ _
      rw [Ne, switched_eq_none hnext]
      simpa [hun t, hnone t] using h.created t
    · show switched place cur next c.idle = _ ∨ switched place cur next c.idle = _
      unfold switched
      split_ifs
      · exact Or.inl rfl
      · exact Or.inr rfl
      · exact h.idle
    · show call c.idle = none
      by_cases hi : c.idle = cur
      · rcases hself with hself | hself
        · rw [hi, hself, ← hi]
          exact h.idleCall
        · rw [hi, hself]
      · rw [hother _ hi]
        exact h.idleCall
    · have : next = t := Option.some.inj (hcur'.symm.trans ht)
      simp [switched, this]

/-! ## Wake-ups -/

/-- Tasks that go from their queues to the ready list. -/
theorem Kept.moved (h : c.Kept place) {k : Clk} {place' : TaskId → Option Place} (hp : k.Placed place')
    (hcur : k.current = c.current) (hwoken : Woken place place')
    (htasks : ∀ t, place t = none → k.tasks t = c.tasks t) : Kept { c with toClk := k } place' := by
  obtain ⟨cur, hrun, hmem⟩ := h.running
  refine ⟨⟨hp, ⟨cur, hcur.trans hrun, hmem⟩, fun t ht => ?_, fun t => ?_, hwoken.runnable h.idle, h.idleCall,
    fun t ht => ?_⟩, fun t ht hout => ?_⟩
  · exact hcur.trans (h.current t ((hwoken.current_iff t).mp ht))
  · rw [Ne, hwoken.none_iff]
    exact h.created t
  · -- A task in between is on no list, and not one that is woken up.
    obtain ⟨hc, hn, hs⟩ := h.unlinked t ht
    refine ⟨hcur.trans hc, (hwoken.none_iff t).mpr hn, ?_⟩
    show (k.tasks t).state = .waiting
    rw [htasks t hn]
    exact hs
  · exact (hwoken.current_iff t).mpr (h.outside t (hcur ▸ ht) hout)

theorem Kept.exec_wakeUp (h : c.Kept place) {q : WaitQueue} {t : TaskId} (ht : t ∈ c.queues q) :
    ∃ c' place', c.exec (.wakeUp q t) = some c' ∧ c'.Kept place' := by
  have hplace := (h.placed.queues q t).mp ht
  obtain ⟨s', hwake, hcur, hs'⟩ := (h.placed.listDelete hplace).wakeUp (t := t) (by simp)
  rw [Function.update_idem] at hs'
  refine ⟨c.withSched s', _, by simp [exec, hwake], h.moved (k := { c.toClk with toSched := s' }) hs' hcur
    (fun u => ?_) fun u hu => ?_⟩
  · by_cases hut : u = t
    · exact Or.inr ⟨⟨q, hut ▸ hplace⟩, by simp [hut]⟩
    · exact Or.inl (by simp [hut])
  · have hne : u ≠ t := by
      rintro rfl
      simp [hplace] at hu
    have htasks := Sched.wakeUp_tasks hwake hne
    exact htasks

/-- A wake-up by the clock. -/
theorem Kept.clkWakeup (h : c.Kept place) :
    ∃ k place', c.tick.clkWakeup = some k ∧ k.ticks = c.ticks + 1 ∧ k.current = c.current ∧
      Kept { c with toClk := k } place' := by
  have hplaced : c.tick.Placed place := h.placed
  obtain ⟨s', place', hwake, hcur, hs', hmove, htasks⟩ := Clk.clkWakeup_placed hplaced
  exact ⟨_, place', hwake, rfl, hcur, h.moved (k := { c.tick with toSched := s' }) hs' hcur
    (Woken.of_passed hmove) fun u hu => htasks u (by simp [hu])⟩

/-! ## Ticks -/

theorem exec_clock_odd {k : Clk} (hwake : c.tick.clkWakeup = some k) (hodd : k.ticks &&& 1 ≠ 0) :
    c.exec .clock = some { c with toClk := k } := by
  simp only [exec, Clk.clkHandler, hwake, Option.bind_some]
  rw [if_neg hodd]
  rfl

theorem exec_clock_even {k : Clk} {s' : Sched} (hwake : c.tick.clkWakeup = some k)
    (heven : k.ticks &&& 1 = 0) (hsched : k.toSched.schedule = some s') :
    c.exec .clock = some { c with toClk := { k with toSched := s' } } := by
  simp only [exec, Clk.clkHandler, hwake, Option.bind_some]
  rw [if_pos heven, hsched]
  rfl

theorem Kept.exec_clock (h : c.Kept place) (hlinked : c.SwitchesLinked .clock) :
    ∃ c' place', c.exec .clock = some c' ∧ c'.Kept place' := by
  obtain ⟨k, place', hwake, hticks, hcur, h'⟩ := h.clkWakeup
  obtain ⟨cur, hrun, -⟩ := h.running
  -- Only every second tick switches, and not from a task in between.
  by_cases heven : (c.ticks + 1) &&& 1 = 0
  · have hun : ¬ Unlinked { c with toClk := k } cur := hlinked heven cur hrun
    rcases h'.toPlaces.switch (hcur.trans hrun) hun c.call (fun _ _ => rfl) (Or.inl rfl) with
      ⟨-, hsched⟩ | ⟨s', place'', hsched, h''⟩
    · exact ⟨_, place', exec_clock_even hwake (hticks ▸ heven) hsched, h'⟩
    · exact ⟨_, place'', exec_clock_even hwake (hticks ▸ heven) hsched, h''⟩
  · exact ⟨_, place', exec_clock_odd hwake (hticks ▸ heven), h'⟩

/-- A switch while the current task is in between loses it. -/
theorem Kept.clock_loses (h : c.Kept place) (hlinked : ¬ c.SwitchesLinked .clock) :
    ∃ c', c.exec .clock = some c' ∧ ¬ c'.Covered := by
  simp only [SwitchesLinked, Classical.not_imp, not_forall, not_not] at hlinked
  obtain ⟨heven, cur, hcur, hun⟩ := hlinked
  obtain ⟨k, place', hwake, hticks, hkcur, h'⟩ := h.clkWakeup
  have hcur' : k.current = some cur := hkcur.trans hcur
  obtain ⟨-, hnone, hstate⟩ := h'.unlinked cur hun
  have hstate : (k.tasks cur).state = .waiting := hstate
  have hidle : k.current ≠ some c.idle := by
    intro hi
    obtain ⟨queue, data, hcall⟩ := hun
    rw [Option.some.inj (hcur'.symm.trans hi), h.idleCall] at hcall
    simp at hcall
  have hready : c.idle ∈ k.ready := (h'.placed.ready _).mpr (h'.idle_ready hidle)
  obtain ⟨next, ready, hr⟩ := List.exists_cons_of_ne_nil (List.ne_nil_of_mem hready)
  -- The task does not run, and is not put on the ready list.
  obtain ⟨s', hsched, hnext, hs'⟩ :=
    Sched.Placed.schedule_of_away (s := k.toSched) h'.placed hcur' (by simp [hstate]) hr
  have hplace : place' next = some .ready := (h'.placed.ready next).mp (by simp [hr])
  have hne : cur ≠ next := by
    rintro rfl
    simp [hnone] at hplace
  have hlost : Function.update place' next (some .current) cur = none := by simp [hne, hnone]
  refine ⟨_, exec_clock_even hwake (hticks ▸ heven) hsched, fun hcov => ?_⟩
  -- It has no place, and another one is current: it is nowhere.
  rcases hcov cur (h.cur_mem hcur) with hc | hc | ⟨q, hc⟩ | hc
  · have hc : s'.current = some cur := hc
    exact hne (Option.some.inj (hc.symm.trans hnext))
  · have hc : cur ∈ s'.ready := hc
    simp [hs'.ready, hlost] at hc
  · have hc : cur ∈ s'.queues q := hc
    simp [hs'.queues, hlost] at hc
  · have hc : cur ∈ s'.zombies := hc
    simp [hs'.zombies, hlost] at hc

/-! ## The statements of `scheduler_sleep_on` -/

theorem unlinked_setCall_of_ne {t : TaskId} {call : Option (SleepAt × WaitQueue × UInt64)} (ht : t ≠ cur) :
    (c.setCall cur call).Unlinked t ↔ c.Unlinked t := by
  simp [Unlinked, setCall, ht]

/-- Outside of the call, no task is in between. -/
theorem Kept.not_unlinked_outside (h : c.Kept place) (hcur : c.current = some cur)
    (hcall : c.inCall = none) (t : TaskId) : ¬ c.Unlinked t := by
  refine h.not_unlinked hcur ?_ t
  rintro ⟨queue, data, hc⟩
  have hnot : c.call cur = none := by simpa [inCall, hcur] using hcall
  simp [hnot] at hc

theorem Kept.exec_sleepOn (h : c.Kept place) {queue : WaitQueue} {data : UInt64}
    (ha : c.Admits (.sleepOn queue data)) :
    ∃ c' place', c.exec (.sleepOn queue data) = some c' ∧ c'.Kept place' := by
  obtain ⟨hcall, hidle⟩ := ha
  obtain ⟨cur, hcur, hmem⟩ := h.running
  have hnone := h.not_unlinked_outside hcur hcall
  have hun : ∀ t, ¬ Unlinked (c.setCall cur (some (.state, queue, data))) t := by
    intro t ht
    by_cases htc : t = cur
    · obtain ⟨queue', data', hc⟩ := ht
      simp [setCall, htc] at hc
    · exact hnone t ((unlinked_setCall_of_ne htc).mp ht)
  refine ⟨c.setCall cur (some (.state, queue, data)), place, by simp [exec, hcur], ⟨h.placed,
    ⟨cur, hcur, hmem⟩, h.current, fun t => ?_, h.idle, ?_, fun t ht => absurd ht (hun t)⟩, fun t ht _ => ?_⟩
  · have hcreated := h.created t
    simp only [hnone t, hun t, or_false] at hcreated ⊢
    exact hcreated
  · have hne : c.idle ≠ cur := fun heq => hidle (heq ▸ hcur)
    simpa [setCall, hne] using h.idleCall
  · obtain rfl : cur = t := Option.some.inj (hcur.symm.trans ht)
    exact h.place_of_outside hcur hcall

/-- A statement that only touches the current task, and leaves it in between or on a list. -/
theorem Kept.after (h : c.Kept place) (hcur : c.current = some cur) (hne : c.idle ≠ cur) {k : Clk}
    {place' : TaskId → Option Place} (hp : k.Placed place') (hkcur : k.current = c.current)
    (hother : ∀ t ≠ cur, place' t = place t) {at' : SleepAt} {queue : WaitQueue} {data : UInt64}
    (hat : at' ≠ .state) (hself : at' = .schedule ∧ place' cur ≠ none ∨
      at' ≠ .schedule ∧ place' cur = none ∧ (k.tasks cur).state = .waiting) :
    Kept ({ c with toClk := k }.setCall cur (some (at', queue, data))) place' := by
  have hcur' : k.current = some cur := hkcur.trans hcur
  -- Only the current task is between its places, before and after the statement.
  have hun : ∀ t ≠ cur, ¬ c.Unlinked t := by
    intro t ht hu
    exact ht (Option.some.inj ((h.unlinked t hu).1.symm.trans hcur))
  have hun' : ∀ t, Unlinked ({ c with toClk := k }.setCall cur (some (at', queue, data))) t →
      t = cur ∧ at' ≠ .schedule := by
    intro t hu
    by_cases htc : t = cur
    · obtain ⟨queue', data', hc⟩ := hu
      refine ⟨htc, ?_⟩
      rintro rfl
      simp [setCall, htc] at hc
    · exact absurd ((unlinked_setCall_of_ne htc).mp hu) (hun t htc)
  -- In each of the fields the current task is the new case, and the others have kept their places.
  refine ⟨⟨hp, ⟨cur, hcur', h.cur_mem hcur⟩, fun t ht => ?_, fun t => ?_, ?_, ?_, fun t ht => ?_⟩,
    fun t ht hout => ?_⟩
  · by_cases htc : t = cur
    · rw [htc]
      exact hcur'
    · exact hkcur.trans (h.current t (hother t htc ▸ ht))
  · by_cases htc : t = cur
    · subst htc
      refine iff_of_true (h.cur_mem hcur) ?_
      rcases hself with ⟨-, hplace⟩ | ⟨hsched, -⟩
      · exact Or.inl hplace
      · refine Or.inr ⟨queue, data, ?_⟩
        cases at' with
        | state => exact absurd rfl hat
        | data => simp [setCall]
        | link => simp [setCall]
        | schedule => exact absurd rfl hsched
    · rw [hother t htc, unlinked_setCall_of_ne htc]
      exact h.created t
  · have hidle := h.idle
    rwa [← hother _ hne] at hidle
  · simpa [setCall, hne] using h.idleCall
  · obtain ⟨rfl, hsched⟩ := hun' t ht
    rcases hself with ⟨hs, -⟩ | ⟨-, hplace, hstate⟩
    · exact absurd hs hsched
    · exact ⟨hcur', hplace, hstate⟩
  · obtain rfl : cur = t := Option.some.inj (hcur'.symm.trans ht)
    exact absurd (hout at' queue data (by simp [setCall])) hat

/-- The next statement keeps the tasks in their places. -/
theorem Kept.exec_next (h : c.Kept place) (ha : c.Admits .next) :
    ∃ c' place', c.exec .next = some c' ∧ c'.Kept place' := by
  obtain ⟨cur, hcur, hmem⟩ := h.running
  have hsome : c.call cur ≠ none := by simpa [Admits, inCall, hcur] using ha
  obtain ⟨⟨at', queue, data⟩, hcall⟩ := Option.ne_none_iff_exists'.mp hsome
  have hne : c.idle ≠ cur := by
    intro heq
    rw [← heq, h.idleCall] at hcall
    simp at hcall
  have hexec : c.exec .next = c.statement cur queue data at' := by simp [exec, hcur, hcall]
  rw [hexec]
  cases at' with
  | state =>
    -- The task has its place up to here, and loses it.
    have hplace : place cur = some .current := by
      refine h.outside cur hcur fun at' queue' data' hc => ?_
      simp only [hcall, Option.some.injEq, Prod.mk.injEq] at hc
      exact hc.1.symm
    have hs := (h.placed.leave hplace).modify (t := cur) (by simp)
      fun task => { task with state := .waiting }
    exact ⟨_, _, rfl, h.after hcur hne (k := { c.toClk with toSched := c.setState cur .waiting }) hs rfl
      (fun t ht => by simp [ht]) (by simp) (Or.inr ⟨by simp, by simp, by simp [Sched.setState, Sched.modify]⟩)⟩
  | data =>
    obtain ⟨-, hnone, hstate⟩ := h.unlinked cur ⟨queue, data, Or.inl hcall⟩
    have hs := h.placed.modify hnone fun task => { task with waitState := asPid data }
    exact ⟨_, _, rfl, h.after hcur hne
      (k := { c.toClk with toSched := _, deadline := Function.update c.deadline cur data }) hs rfl
      (fun t ht => rfl) (by simp) (Or.inr ⟨by simp, hnone, by simpa [Sched.modify] using hstate⟩)⟩
  | link =>
    -- It has a place again.
    obtain ⟨-, hnone, hstate⟩ := h.unlinked cur ⟨queue, data, Or.inr hcall⟩
    have hs := h.placed.listAdd queue hnone hstate
    exact ⟨_, _, rfl, h.after hcur hne (k := { c.toClk with toSched := c.listAdd queue cur }) hs rfl
      (fun t ht => by simp [ht]) (by simp) (Or.inl ⟨rfl, by simp⟩)⟩
  | schedule =>
    have hlinked : ¬ c.Unlinked cur := by
      rintro ⟨queue', data', hc⟩
      simp [hcall] at hc
    rcases h.toPlaces.switch hcur hlinked (Function.update c.call cur none)
      (fun t ht => by simp [ht]) (Or.inr (by simp)) with ⟨hidle, -⟩ | ⟨s', place', hsched, h'⟩
    · exact absurd (Option.some.inj (hcur.symm.trans hidle)).symm hne
    · exact ⟨_, place', by simp [statement, hsched]; rfl, h'⟩

/-! ## New tasks and exits -/

theorem Kept.exec_queueNew (h : c.Kept place) {t : TaskId} {prio : ℤ}
    (ha : c.Admits (.queueNew t prio)) :
    ∃ c' place', c.exec (.queueNew t prio) = some c' ∧ c'.Kept place' := by
  obtain ⟨hcall, ht⟩ := ha
  obtain ⟨cur, hcur, hmem⟩ := h.running
  -- Outside of a call no task is between its places.
  have hun := h.not_unlinked_outside hcur hcall
  have hcreated : ∀ u, u ∈ c.created ↔ place u ≠ none := fun u => by simpa [hun u] using h.created u
  have hnone : place t = none := by simpa using mt (hcreated t).mpr ht
  have hne : cur ≠ t := fun heq => ht (heq ▸ hmem)
  obtain ⟨s', hnew, hcur', hs'⟩ := h.placed.queueNew hcur hnone prio
  refine ⟨{ c.withSched s' with created := t :: c.created }, _, by simp [exec, hnew],
    ⟨hs', ⟨cur, hcur'.trans hcur, List.mem_cons_of_mem t hmem⟩, fun u hu => ?_, fun u => ?_, ?_, h.idleCall,
      fun u hu => absurd hu (hun u)⟩, fun u hu _ => ?_⟩
  · by_cases hut : u = t
    · simp [hut] at hu
    · exact hcur'.trans (h.current u (by simpa [hut] using hu))
  · have hun' : ¬ Unlinked { c.withSched s' with created := t :: c.created } u := hun u
    by_cases hut : u = t
    · simp [hut]
    · simp [hut, hun', hcreated]
  · have hi : c.idle ≠ t := by
      rintro rfl
      simpa [hnone] using h.idle
    have hidle := h.idle
    simpa [hi, withSched] using hidle
  · obtain rfl : cur = u := Option.some.inj (hcur.symm.trans (hcur'.symm.trans hu))
    simpa [hne] using h.place_of_outside hcur hcall

theorem Kept.exec_exit (h : c.Kept place) {status : Int16} (ha : c.Admits (.exit status)) :
    ∃ c' place', c.exec (.exit status) = some c' ∧ c'.Kept place' := by
  obtain ⟨hcall, hidle⟩ := ha
  obtain ⟨cur, hcur, hmem⟩ := h.running
  have hplace := h.place_of_outside hcur hcall
  have hun := h.not_unlinked_outside hcur hcall
  by_cases hpid : (c.tasks cur).pid = 0
  · exact ⟨c, place, by simp [exec, Sched.schedulerExit, hcur, hpid]; rfl, h⟩
  · -- The task goes to the zombies, and its waiter to the ready list, before the switch.
    have hleft : Function.update place cur none cur = none := by simp
    have hs := ((h.placed.leave hplace).modify hleft fun task =>
      { task with state := .zombie, status := status }).addZombie hleft (by simp [Sched.modify])
    rw [Function.update_idem] at hs
    obtain ⟨s₁, place₁, hwake, hcur₁, hs₁, hmove⟩ := hs.wakeWaiter cur
    have hself : place₁ cur = some .zombies := by simpa using hmove cur
    have hcases : ∀ t ≠ cur, place₁ t = place t ∨
        place t = some (.queue .waiters) ∧ place₁ t = some .ready := by
      intro t ht
      simpa [ht] using hmove t
    have hplaces : Places (c.withSched s₁) place₁ := by
      refine ⟨hs₁, ⟨cur, hcur₁.trans hcur, hmem⟩, fun t ht => ?_, fun t => ?_, ?_, h.idleCall,
        fun t ht => absurd ht (hun t)⟩
      · by_cases htc : t = cur
        · simp [htc, hself] at ht
        · rcases hcases t htc with hm | ⟨-, hm⟩
          · exact hcur₁.trans (h.current t (hm ▸ ht))
          · simp [hm] at ht
      · have hun' : ¬ (c.withSched s₁).Unlinked t := hun t
        have hcreated : t ∈ c.created ↔ place t ≠ none := by simpa [hun t] using h.created t
        show t ∈ c.created ↔ _
        by_cases htc : t = cur
        · simp [htc, hself, hmem]
        · rcases hcases t htc with hm | ⟨hq, hm⟩
          · simp [hcreated, hm, hun']
          · simp [hcreated, hq, hm]
      · have hne : c.idle ≠ cur := fun heq => hidle (heq ▸ hcur)
        right
        rcases hcases c.idle hne with hm | ⟨-, hm⟩
        · exact hm.trans (h.idle_ready hidle)
        · exact hm
    rcases hplaces.switch (hcur₁.trans hcur) (hun cur) c.call (fun _ _ => rfl) (Or.inl rfl) with
      ⟨hi, -⟩ | ⟨s', place', hsched, h'⟩
    · exact absurd (hcur₁.symm.trans hi) hidle
    · have hsched : s₁.schedule = some s' := hsched
      exact ⟨_, place', by simp [exec, Sched.schedulerExit, hcur, hpid, hwake, hsched]; rfl, h'⟩

/-! ## Runs -/

/-- Every step that meets the condition succeeds and keeps the tasks in their places. -/
theorem Kept.exec {op : PreemptOp} (h : c.Kept place) (ha : c.Admits op) (hs : c.SwitchesLinked op) :
    ∃ c' place', c.exec op = some c' ∧ c'.Kept place' := by
  cases op with
  | sleepOn queue data => exact h.exec_sleepOn ha
  | next => exact h.exec_next ha
  | clock => exact h.exec_clock hs
  | queueNew t prio => exact h.exec_queueNew ha
  | exit status => exact h.exec_exit ha
  | wakeUp queue t => exact h.exec_wakeUp ha

theorem kept_boot {tasks : TaskId → Task} {main idle : TaskId} {clockIncMs : ℕ} (hne : main ≠ idle)
    (hboot : boot tasks main idle clockIncMs = some c) : ∃ place, c.Kept place := by
  obtain ⟨s, hs, rfl⟩ := Option.map_eq_some_iff.mp hboot
  obtain ⟨c₀, place, hthreads, h⟩ := @Threads.assigned_boot tasks main idle hne
  obtain ⟨s', hs', rfl⟩ := Option.map_eq_some_iff.mp hthreads
  obtain rfl : s' = s := Option.some.inj (hs'.symm.trans hs)
  obtain ⟨cur, hcur⟩ := h.running
  have hun : ∀ t, ¬ Unlinked { toSched := s', clockIncMs, ticks := 0, nowNs := 0, deadline := fun _ => 0
                               created := [idle, main], idle, call := fun _ => none } t := by
    rintro t ⟨queue, data, hc⟩
    simp at hc
  refine ⟨place, ⟨h.placed, ⟨cur, hcur, ?_⟩, fun t ht => (h.current t).mpr ht, fun t => ?_, h.idle, rfl,
    fun t ht => absurd ht (hun t)⟩, fun t ht _ => (h.current t).mp ht⟩
  · exact (h.created cur).mpr (by simp [(h.current cur).mp hcur])
  · simpa [hun t] using h.created t

end Preempt

/-- A step that meets the condition keeps the tasks in their places. -/
theorem Preempt.kept_step {c c' : Preempt} {op : PreemptOp} (hi : ∃ place, c.Kept place)
    (hsw : c.SwitchesLinked op) (hs : c.step op = some c') : ∃ place, c'.Kept place := by
  obtain ⟨place, h⟩ := hi
  rw [Preempt.step] at hs
  split_ifs at hs with ha
  obtain ⟨c'', place', hexec, h'⟩ := h.exec ha hsw
  obtain rfl : c'' = c' := Option.some.inj (hexec.symm.trans hs)
  exact ⟨place', h'⟩

/-- A step that does not meet it loses the current task. -/
theorem Preempt.step_loses {c : Preempt} {op : PreemptOp} (hi : ∃ place, c.Kept place)
    (hsw : ¬ c.SwitchesLinked op) : ∃ c', c.step op = some c' ∧ ¬ c'.Covered := by
  obtain ⟨place, h⟩ := hi
  cases op with
  | clock =>
    obtain ⟨c', hexec, hlost⟩ := h.clock_loses hsw
    exact ⟨c', by simp [Preempt.step, Preempt.Admits, hexec], hlost⟩
  | _ => exact absurd trivial hsw

/-- **No task is lost to the clock, exactly.** In every run from the initialised kernel, with the handler of
the clock between any two statements of `scheduler_sleep_on`: in all states every task that is not current
is on the ready list, on a wait queue or on `zombies`, if and only if no tick of the run switches tasks
while the current one has said that it waits and is not on its queue yet. -/
theorem no_task_lost_iff (tasks : TaskId → Task) (main idle : TaskId) (clockIncMs : ℕ)
    (hne : main ≠ idle) (c₀ : Preempt) (hboot : Preempt.boot tasks main idle clockIncMs = some c₀)
    (ops : List PreemptOp) :
    Always Preempt.step Preempt.Covered c₀ ops ↔ Steps Preempt.step Preempt.SwitchesLinked c₀ ops := by
  obtain ⟨place, h⟩ := Preempt.kept_boot hne hboot
  refine always_iff_steps (I := fun c => ∃ place, c.Kept place) (fun c op c' hi _ hsw hs => ?_)
    (fun c op hi _ hsw => Preempt.step_loses hi hsw) ⟨place, h⟩ h.covered
  have hkept := Preempt.kept_step hi hsw hs
  obtain ⟨place', h'⟩ := hkept
  exact ⟨⟨place', h'⟩, h'.covered⟩

/-- The main task sleeps until a deadline, with ticks between the statements that do not switch. -/
theorem no_task_lost_odd :
    ∃ c₀, Preempt.boot (fun _ => ⟨.ready, 0, 0, 0, 0, 0⟩) 0 1 10 = some c₀ ∧
      (Always Preempt.step Preempt.Covered c₀
          [.sleepOn blocked 20000000, .next, .clock, .next, .next, .clock, .next] ↔
        Steps Preempt.step Preempt.SwitchesLinked c₀
          [.sleepOn blocked 20000000, .next, .clock, .next, .next, .clock, .next]) := by
  have hsome : (Preempt.boot (fun _ => ⟨.ready, 0, 0, 0, 0, 0⟩) 0 1 10).isSome := by decide
  obtain ⟨c₀, hboot⟩ := Option.isSome_iff_exists.mp hsome
  exact ⟨c₀, hboot, no_task_lost_iff _ 0 1 10 (by decide) c₀ hboot _⟩

/-- The main task sleeps on the queue of a driver. A second tick comes after its first statement: the main
task is not current any more, and on no list. -/
theorem not_always_covered_tick :
    ∃ c₀, Preempt.boot (fun _ => ⟨.ready, 0, 0, 0, 0, 0⟩) 0 1 10 = some c₀ ∧
      ¬ Always Preempt.step Preempt.Covered c₀ [.clock, .sleepOn (.device 1) 0, .next, .clock] := by
  have hrun : ((Preempt.boot (fun _ => ⟨.ready, 0, 0, 0, 0, 0⟩) 0 1 10).bind fun c₀ =>
      (run Preempt.step c₀ [.clock, .sleepOn (.device 1) 0, .next]).map
        fun c => (c₀.ticks, c.ticks, c.current, decide (c.call 0 = some (.data, .device 1, 0)))) =
      some (0, 1, some 0, true) := by
    decide
  obtain ⟨c₀, hboot, hrun⟩ := Option.bind_eq_some_iff.mp hrun
  obtain ⟨c, hc, he⟩ := Option.map_eq_some_iff.mp hrun
  simp only [Prod.mk.injEq, decide_eq_true_eq] at he
  obtain ⟨hticks₀, hticks, hcur, hcall⟩ := he
  -- Up to here the tasks are in their places.
  have hsteps : Steps Preempt.step Preempt.SwitchesLinked c₀ [.clock, .sleepOn (.device 1) 0, .next] := by
    refine ⟨fun heven => ?_, fun _ _ => ⟨trivial, fun _ _ => ⟨trivial, fun _ _ => trivial⟩⟩⟩
    rw [hticks₀] at heven
    exact absurd heven (by decide)
  have hkept := (always_of_steps (P := fun c => ∃ place, c.Kept place)
    (fun c op c' hi hsw hs => Preempt.kept_step hi hsw hs) (Preempt.kept_boot (by decide) hboot) hsteps).last hc
  have hswitch : ¬ c.SwitchesLinked .clock := by
    intro hsw
    exact hsw (by rw [hticks]; decide) 0 hcur ⟨.device 1, 0, Or.inl hcall⟩
  obtain ⟨c', hstep, hlost⟩ := Preempt.step_loses hkept hswitch
  refine ⟨c₀, hboot, fun h => hlost (h.last ?_)⟩
  have hsnoc := run_snoc Preempt.step c₀ [.clock, .sleepOn (.device 1) 0, .next] .clock
  rw [hc] at hsnoc
  exact hsnoc.trans hstep

end I80k.Kernel

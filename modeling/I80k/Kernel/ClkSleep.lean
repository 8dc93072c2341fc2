import I80k.Kernel.Clk
import I80k.Kernel.SchedulerOrder

/-!
# Timed sleep

A task that sleeps until a deadline is on `blocked` until the first tick that reaches its deadline, and that
tick makes it ready. The statements are about every state from which the tasks are in their places, with any
deadlines on `blocked`, and about everything that can happen from there, as long as the time in nanoseconds
fits in 64 bits.

## Main definitions

* `Clk.WakesExactly`: what `clk_wakeup` does at a tick
* `Timed`: a scheduler with a clock at work
* `Timed.WellFormed`: the tasks are in their places, and the ready list is ordered

## Main results

* `Clk.foldlM_unblock_exact`: what the loop of `clk_wakeup` does to `blocked` and to the ready list
* `Timed.WellFormed.step`: the steps keep the tasks in their places and the ready list ordered
* `clk_sleep_exact`: each tick wakes up exactly the tasks whose deadlines have passed, and no task before
-/

namespace I80k.Kernel

open StepSystem

namespace Clk

/-! ## What a tick wakes up -/

/-- `task_put` adds the task to the ready list, once. -/
theorem putReady_perm {s s' : Sched} {t : TaskId} (h : s.putReady t = some s') :
    s'.ready.Perm (t :: s.ready) := by
  obtain ⟨ready, hput, hperm⟩ := s.putReady_spec t
  obtain rfl := Option.some.inj (hput.symm.trans h)
  exact hperm

/-- The turns of the loop: `blocked` keeps the tasks whose deadlines are to come, in their order, and the
ready list gets the others. -/
theorem foldlM_unblock_exact {c : Clk} {s s' : Sched} {front l : List TaskId}
    (hblocked : s.queues blocked = front ++ l) (hnd : (front ++ l).Nodup)
    (h : l.foldlM c.unblock s = some s') :
    s'.queues = Function.update s.queues blocked (front ++ l.filter fun t => c.nowNs < c.deadline t) ∧
      s'.ready.Perm (s.ready ++ l.filter fun t => c.deadline t ≤ c.nowNs) ∧
      s'.zombies = s.zombies ∧ s'.current = s.current ∧ (s.Ordered → s'.Ordered) := by
  -- Induction on the tasks to come; `front` are those that the loop has left on `blocked`.
  induction l generalizing s front with
  | nil =>
    obtain rfl : s = s' := Option.some.inj h
    refine ⟨?_, by simp, rfl, rfl, id⟩
    rw [List.filter_nil, ← hblocked, Function.update_eq_self]
  | cons t l ih =>
    rw [List.foldlM_cons] at h
    obtain ⟨s₁, hturn, hrest⟩ := Option.bind_eq_some_iff.mp h
    unfold unblock at hturn
    split_ifs at hturn with hpass
    · -- The task leaves `blocked`.
      have hnot : t ∉ front := fun hmem =>
        (List.nodup_append.mp hnd).2.2 t hmem t (by simp) rfl
      have herase : (front ++ t :: l).erase t = front ++ l := by
        rw [List.erase_append_right _ hnot, List.erase_cons_head]
      obtain ⟨-, hz, hq, hcur⟩ := Sched.putReady_frame hturn
      have hqueues : s₁.queues = Function.update s.queues blocked (front ++ l) := by
        rw [hq]
        show Function.update s.queues blocked ((s.queues blocked).erase t) = _
        rw [hblocked, herase]
      have hready : s₁.ready.Perm (t :: s.ready) := by
        have hperm := putReady_perm (s := (s.listDelete blocked t).setState t .ready) hturn
        exact hperm
      have hnd' : (front ++ l).Nodup := herase ▸ hnd.erase t
      obtain ⟨hq', hr', hz', hcur', hord⟩ := ih (by simp [hqueues]) hnd' hrest
      have hnow : ¬ c.nowNs < c.deadline t := UInt64.not_lt.mpr hpass
      refine ⟨?_, ?_, hz'.trans hz, hcur'.trans hcur, fun ho => hord ?_⟩
      · rw [hq', hqueues, Function.update_idem]
        simp [hnow]
      · refine hr'.trans ?_
        rw [List.filter_cons_of_pos (by simpa using hpass)]
        exact (hready.append_right _).trans (List.perm_middle.symm)
      · refine Sched.Ordered.wakeUp ?_ hturn
        exact ho.congr rfl rfl
    · obtain rfl := Option.some.inj hturn
      have hnow : c.nowNs < c.deadline t := UInt64.not_le.mp hpass
      have hsplit : front ++ t :: l = (front ++ [t]) ++ l := by simp
      obtain ⟨hq', hr', hz', hcur', hord⟩ := ih (hblocked.trans hsplit) (hsplit ▸ hnd) hrest
      refine ⟨?_, ?_, hz', hcur', hord⟩
      · rw [hq']
        simp [hnow]
      · rwa [List.filter_cons_of_neg (by simpa using hnow)]

/-- What a tick wakes up, with the time after it: the tasks whose deadlines have passed, and no others. -/
structure WakesExactly (c k : Clk) : Prop where
  now : k.nowNs.toNat = c.nowNs.toNat + (msToNs c.clockIncMs).toNat
  deadline : k.deadline = c.deadline
  /-- The others are left on `blocked`, in their order. -/
  stay : k.queues blocked = (c.queues blocked).filter fun t => k.nowNs < c.deadline t
  /-- The ready list gets them, once each, and stays ordered. -/
  ready : k.ready.Perm (c.ready ++ (c.queues blocked).filter fun t => c.deadline t ≤ k.nowNs)
  once : k.ready.Nodup
  ordered : k.Ordered
  queues : ∀ q ≠ blocked, k.queues q = c.queues q
  zombies : k.zombies = c.zombies
  current : k.current = c.current

/-- `clk_wakeup` at a tick. -/
theorem clkWakeup_exact {c : Clk} {place : TaskId → Option Place} (h : c.Placed place) (ho : c.Ordered)
    (hnow : c.nowNs.toNat + (msToNs c.clockIncMs).toNat < 2 ^ 64) :
    ∃ s', c.tick.clkWakeup = some { c.tick with toSched := s' } ∧
      c.WakesExactly { c.tick with toSched := s' } := by
  obtain ⟨s', place', hwake, -, h', -⟩ := clkWakeup_placed (c := c.tick) h
  have hfold : (c.queues blocked).foldlM c.tick.unblock c.toSched = some s' := by
    unfold clkWakeup at hwake
    split_ifs at hwake with hempty
    · have hsame : c.tick.toSched = s' := congrArg Clk.toSched (Option.some.inj hwake)
      have hnil : c.queues blocked = [] := hempty
      rw [hnil]
      exact congrArg some hsame
    · obtain ⟨s₁, hfold, hs₁⟩ := Option.map_eq_some_iff.mp hwake
      rw [← show s₁ = s' from congrArg Clk.toSched hs₁]
      exact hfold
  have hsplit : c.queues blocked = [] ++ c.queues blocked := rfl
  obtain ⟨hq, hr, hz, hcur, hord⟩ := foldlM_unblock_exact hsplit (h.nodup_queues blocked) hfold
  refine ⟨s', hwake, ?_, rfl, ?_, hr, h'.nodup_ready, hord ho, fun q hne => ?_, hz, hcur⟩
  · show (c.nowNs + msToNs c.clockIncMs).toNat = _
    rw [UInt64.toNat_add, Nat.mod_eq_of_lt hnow]
  · show s'.queues blocked = _
    rw [hq, Function.update_self, List.nil_append]
    rfl
  · show s'.queues q = _
    rw [hq, Function.update_of_ne hne]

/-- `clk_nanosleep` goes to sleep on `blocked` with a deadline to come. -/
theorem sleepOn_of_slept {c k : Clk} {clockid : Clockid} {flags : Int16} {request : Option Timespec}
    {remain : Bool} (h : c.clkNanosleep clockid flags request remain = some (.slept k)) :
    ∃ deadline, c.nowNs < deadline ∧ c.sleepOn blocked deadline = some k := by
  unfold clkNanosleep at h
  cases request with
  | none => simp at h
  | some request =>
    simp only at h
    split_ifs at h with hinval hpast
    · simp at h
    · simp at h
    · obtain ⟨k', hsleep, hk⟩ := Option.map_eq_some_iff.mp h
      obtain rfl := Nanosleep.slept.inj hk
      exact ⟨_, UInt64.not_le.mp hpast, hsleep⟩

end Clk

/-- A switch puts no ready task elsewhere than in the place of the current one. -/
theorem Sched.mem_ready_schedule {s s' : Sched} {t : TaskId} (h : s.schedule = some s') (ht : t ∈ s.ready) :
    t ∈ s'.ready ∨ s'.current = some t := by
  cases hcur : s.current with
  | none =>
    obtain rfl : s = s' := by simpa [schedule, hcur] using h
    exact Or.inl ht
  | some prev =>
    obtain ⟨next, ready, hready⟩ := List.exists_cons_of_ne_nil (List.ne_nil_of_mem ht)
    simp only [schedule, hcur, hready, Option.bind_eq_bind] at h
    rw [hready] at ht
    -- The first one is current now, and the others are still there.
    rcases List.mem_cons.mp ht with rfl | ht
    · right
      split_ifs at h
      · obtain ⟨s₁, hput, hs'⟩ := Option.bind_eq_some_iff.mp h
        obtain rfl := Option.some.inj hs'
        exact (putReady_frame hput).2.2.2
      · obtain rfl := Option.some.inj h
        rfl
    · left
      split_ifs at h
      · obtain ⟨s₁, hput, hs'⟩ := Option.bind_eq_some_iff.mp h
        obtain rfl := Option.some.inj hs'
        exact (Clk.putReady_perm hput).mem_iff.mpr (List.mem_cons_of_mem prev ht)
      · obtain rfl := Option.some.inj h
        exact ht

/-! ## The clock at work -/

/-- A scheduler with a clock at work: the tasks created so far, and which of them is the idle one. -/
structure Timed extends Clk where
  created : List TaskId
  idle : TaskId

/-- The steps: the handler of the clock, `clk_nanosleep` by the current task, and what else the tasks and the
drivers do. `wakeUp q t` is `list_delete(&t->node)` and `scheduler_wake_up(t)`. -/
inductive TimedOp
  | clock
  | nanosleep (clockid : Clockid) (flags : Int16) (request : Option Timespec) (remain : Bool)
  | sleepOn (q : WaitQueue) (data : UInt64)
  | queueNew (t : TaskId) (prio : ℤ)
  | exit (status : Int16)
  | wakeUp (q : WaitQueue) (t : TaskId)

namespace Timed

/-- The steps that happen: the time fits in its 64 bits, the idle task only executes `hlt`, and `blocked` is
the list of `clk.c` alone. -/
def Admits (c : Timed) : TimedOp → Prop
  | .clock => c.nowNs.toNat + (msToNs c.clockIncMs).toNat < 2 ^ 64
  | .nanosleep _ _ _ _ => c.current ≠ some c.idle
  | .sleepOn q _ => c.current ≠ some c.idle ∧ q ≠ blocked
  | .queueNew t _ => t ∉ c.created
  | .exit _ => c.current ≠ some c.idle
  | .wakeUp q t => t ∈ c.queues q ∧ q ≠ blocked

instance (c : Timed) : DecidablePred c.Admits
  | .clock => inferInstanceAs (Decidable (_ < _))
  | .nanosleep _ _ _ _ => inferInstanceAs (Decidable (_ ≠ _))
  | .sleepOn _ _ => inferInstanceAs (Decidable (_ ∧ _))
  | .queueNew _ _ => inferInstanceAs (Decidable (_ ∉ _))
  | .exit _ => inferInstanceAs (Decidable (_ ≠ _))
  | .wakeUp _ _ => inferInstanceAs (Decidable (_ ∧ _))

def withClk (c : Timed) (k : Clk) : Timed := { c with toClk := k }

def withSched (c : Timed) (s : Sched) : Timed := { c with toSched := s }

/-- The step takes effect. -/
def exec (c : Timed) : TimedOp → Option Timed
  | .clock => c.clkHandler.map c.withClk
  | .nanosleep clockid flags request remain =>
    (c.clkNanosleep clockid flags request remain).map fun
      | .returned _ => c
      | .slept k => c.withClk k
  | .sleepOn q data => (c.toClk.sleepOn q data).map c.withClk
  | .queueNew t prio =>
    (c.schedulerQueueNew t prio).map fun (s, _) => { c.withSched s with created := t :: c.created }
  | .exit status => (c.schedulerExit status).map c.withSched
  | .wakeUp q t => ((c.listDelete q t).schedulerWakeUp (some t)).map c.withSched

/-- One step. -/
def step (c : Timed) (op : TimedOp) : Option Timed :=
  if c.Admits op then c.exec op else none

/-- The kernel after `scheduler_initialize`, `kthread_initialize` and `clk_initialize`. -/
def boot (tasks : TaskId → Task) (main idle : TaskId) (clockIncMs : ℕ) : Option Timed :=
  (kthreadInitialize (schedulerInitialize tasks main) idle).map fun s =>
    { toSched := s, clockIncMs, ticks := 0, nowNs := 0, deadline := fun _ => 0
      created := [idle, main], idle }

/-- The scheduler, without its clock. -/
def threads (c : Timed) : Threads := { c with }

/-- The tasks are in their places, and the ready list is ordered. Nothing is said about the deadlines. -/
def WellFormed (c : Timed) : Prop := (∃ place, c.threads.Assigned place) ∧ c.Ordered

variable {c c' : Timed} {place : TaskId → Option Place} {t : TaskId} {q : WaitQueue}

/-! ## The places -/

/-- Tasks that go from their queues to the ready list. -/
theorem assigned_moved (h : c.threads.Assigned place) {s : Sched} {place' : TaskId → Option Place}
    (hp : s.Placed place') (hcur : s.current = c.current) (hwoken : Woken place place') :
    (c.withSched s).threads.Assigned place' := by
  obtain ⟨cur, hrun⟩ := h.running
  refine ⟨hp, fun t => ?_, fun t => ?_, ⟨cur, hcur.trans hrun⟩, hwoken.runnable h.idle⟩
  · show s.current = some t ↔ _
    rw [hcur, hwoken.current_iff]
    exact h.current t
  · rw [Ne, hwoken.none_iff]
    exact h.created t

/-- What `clk_handler` does: `clk_wakeup`, and a switch at every second tick. -/
theorem WellFormed.clock (h : c.WellFormed) (hnow : c.Admits .clock) :
    ∃ s c', c.tick.clkWakeup = some { c.tick with toSched := s } ∧ c.step .clock = some c' ∧
      c.WakesExactly { c.tick with toSched := s } ∧ c'.WellFormed ∧ c'.nowNs = c.tick.nowNs ∧
      c'.deadline = c.deadline ∧ c'.queues = s.queues ∧
      (c'.toSched = s ∨ s.schedule = some c'.toSched) := by
  obtain ⟨⟨place, h⟩, ho⟩ := h
  obtain ⟨s, hwake, hexact⟩ := Clk.clkWakeup_exact h.placed ho hnow
  obtain ⟨s', place', hwake', hcur, h', hmove, -⟩ := Clk.clkWakeup_placed (c := c.tick) h.placed
  obtain rfl : s' = s := congrArg Clk.toSched (Option.some.inj (hwake'.symm.trans hwake))
  have hassigned : (c.withSched s').threads.Assigned place' :=
    assigned_moved h h' hcur (Woken.of_passed hmove)
  have hstep : c.step .clock = c.clkHandler.map c.withClk := if_pos hnow
  rw [hstep]
  unfold Clk.clkHandler
  rw [hwake, Option.bind_some]
  -- The switch at every second tick takes a task off the ready list, and keeps its order.
  by_cases heven : c.tick.ticks &&& 1 = 0
  · rw [if_pos heven]
    obtain ⟨d, place'', hexec, hd⟩ := hassigned.exec_schedule
    obtain ⟨s'', hsched, rfl⟩ := Option.map_eq_some_iff.mp hexec
    have hsched : s'.schedule = some s'' := hsched
    refine ⟨s', c.withClk { c.tick with toSched := s'' }, rfl, ?_, hexact, ⟨⟨place'', hd⟩, ?_⟩, rfl, rfl, ?_,
      Or.inr hsched⟩
    · simp [hsched]
    · exact hexact.ordered.schedule hsched
    · exact (Sched.schedule_frame hsched).2.2
  · rw [if_neg heven]
    exact ⟨s', c.withClk { c.tick with toSched := s' }, rfl, rfl, hexact, ⟨⟨place', hassigned⟩, hexact.ordered⟩,
      rfl, rfl, rfl, Or.inl rfl⟩

/-- A sleep keeps the tasks in their places, and the deadlines of those that sleep already. -/
theorem WellFormed.sleepOn (h : c.WellFormed) (hidle : c.current ≠ some c.idle) {data : UInt64} {k : Clk}
    (hk : c.toClk.sleepOn q data = some k) :
    (c.withClk k).WellFormed ∧ k.nowNs = c.nowNs ∧
      ∀ t ∈ c.queues blocked, t ∈ k.queues blocked ∧ k.deadline t = c.deadline t := by
  obtain ⟨⟨place, h⟩, ho⟩ := h
  obtain ⟨cur, hcur, hk⟩ := Option.bind_eq_some_iff.mp hk
  obtain ⟨s, hsleep, rfl⟩ := Option.map_eq_some_iff.mp hk
  have hexec : c.threads.exec (.sleepOn q (asPid data)) = some { c.threads with toSched := s } := by
    have hsleep' : c.threads.schedulerSleepOn (some q) (asPid data) = some s := hsleep
    simp [Threads.exec, hsleep']
  have hadmits : c.threads.Admits (.sleepOn q (asPid data)) := hidle
  have hassigned := h.of_exec hadmits hexec
  refine ⟨⟨hassigned, ho.sleepOn hsleep⟩, rfl, fun t ht => ⟨?_, ?_⟩⟩
  · show t ∈ s.queues blocked
    rw [Sched.sleepOn_queues hcur hsleep]
    by_cases hq : blocked = q
    · subst hq
      simp [ht]
    · simpa [hq] using ht
  · have hplace : place t = some (.queue blocked) := (h.placed.queues blocked t).mp ht
    have hne : t ≠ cur := fun heq => h.current_ne hplace (by simp) (heq ▸ hcur)
    exact Function.update_of_ne hne _ _

/-! ## Steps -/

/-- A step other than a tick keeps the time, and what is on `blocked`. -/
structure Keeps (c c' : Timed) : Prop where
  wellFormed : c'.WellFormed
  now : c'.nowNs = c.nowNs
  blocked : ∀ t ∈ c.queues blocked, t ∈ c'.queues blocked ∧ c'.deadline t = c.deadline t

theorem admits_of_step {op : TimedOp} (hs : c.step op = some c') : c.Admits op := by
  unfold Timed.step at hs
  split_ifs at hs with ha
  exact ha

/-- A step of the scheduler that changes neither `blocked` nor the clock. -/
theorem WellFormed.keeps (h : c.WellFormed) (op : SchedOp) (ha : c.threads.Admits op) {d : Threads}
    (hd : c.threads.exec op = some d) (hthreads : c'.threads = d) (ho : c'.Ordered)
    (hnow : c'.nowNs = c.nowNs) (hdead : c'.deadline = c.deadline)
    (hq : c'.queues blocked = c.queues blocked) : c.Keeps c' := by
  obtain ⟨⟨place, h⟩, -⟩ := h
  subst hthreads
  exact ⟨⟨h.of_exec ha hd, ho⟩, hnow, fun t ht => ⟨hq ▸ ht, by rw [hdead]⟩⟩

theorem WellFormed.step_other (h : c.WellFormed) {op : TimedOp} (hop : op ≠ .clock)
    (hs : c.step op = some c') : c.Keeps c' := by
  have hwf := h
  obtain ⟨⟨place, h⟩, ho⟩ := h
  unfold step at hs
  split_ifs at hs with ha
  -- The queue of the sleeping tasks changes with the clock alone, or by a task that goes to sleep.
  cases op with
  | clock => exact absurd rfl hop
  | nanosleep clockid flags request remain =>
    obtain ⟨turn, hturn, hc'⟩ := Option.map_eq_some_iff.mp hs
    cases turn with
    | returned value =>
      obtain rfl : c = c' := hc'
      exact ⟨hwf, rfl, fun t ht => ⟨ht, rfl⟩⟩
    | slept k =>
      obtain rfl : c.withClk k = c' := hc'
      obtain ⟨deadline, -, hsleep⟩ := Clk.sleepOn_of_slept hturn
      obtain ⟨h', hnow, hblocked⟩ := hwf.sleepOn ha hsleep
      exact ⟨h', hnow, hblocked⟩
  | sleepOn q data =>
    obtain ⟨k, hsleep, rfl⟩ := Option.map_eq_some_iff.mp hs
    obtain ⟨h', hnow, hblocked⟩ := hwf.sleepOn ha.1 hsleep
    exact ⟨h', hnow, hblocked⟩
  | queueNew t prio =>
    obtain ⟨⟨s, pid⟩, hnew, rfl⟩ := Option.map_eq_some_iff.mp hs
    have hnew' : c.threads.schedulerQueueNew t prio = some (s, pid) := hnew
    have hexec : c.threads.exec (.queueNew t prio) =
        some { c.threads with toSched := s, created := t :: c.created } :=
      Option.map_eq_some_iff.mpr ⟨(s, pid), hnew', rfl⟩
    -- A task that is not created yet has no place.
    have hnot : t ∉ c.ready := by
      intro hmem
      exact ha ((h.created t).mpr (by simp [(h.placed.ready t).mp hmem]))
    refine hwf.keeps (.queueNew t prio) ha hexec rfl (ho.queueNew hnot hnew) rfl rfl ?_
    exact congrFun (Sched.queueNew_frame hnew).2.1 blocked
  | exit status =>
    obtain ⟨s, hexit, rfl⟩ := Option.map_eq_some_iff.mp hs
    have hexit' : c.threads.schedulerExit status = some s := hexit
    have hexec : c.threads.exec (.exit status) = some { c.threads with toSched := s } := by
      simp [Threads.exec, hexit']
    refine hwf.keeps (.exit status) ha hexec rfl (ho.exit hexit) rfl rfl ?_
    -- A parent that waits is on another queue.
    exact Sched.exit_queues (by simp [blocked]) hexit
  | wakeUp q t =>
    obtain ⟨hmem, hq⟩ := ha
    obtain ⟨s, hwake, rfl⟩ := Option.map_eq_some_iff.mp hs
    have hwake' : (c.threads.listDelete q t).schedulerWakeUp (some t) = some s := hwake
    have hexec : c.threads.exec (.wakeUp q t) = some { c.threads with toSched := s } := by
      simp [Threads.exec, hwake']
    refine hwf.keeps (.wakeUp q t) hmem hexec rfl ?_ rfl rfl ?_
    · refine Sched.Ordered.wakeUp ?_ hwake
      exact ho.congr rfl rfl
    · show s.queues blocked = _
      rw [(Sched.wakeUp_frame hwake).2.2]
      -- The task is taken from a queue other than that of the clock.
      exact Function.update_of_ne (Ne.symm hq) _ _

/-- The steps keep the tasks in their places and the ready list ordered. -/
theorem WellFormed.step {op : TimedOp} (h : c.WellFormed) (hs : c.step op = some c') : c'.WellFormed := by
  by_cases hop : op = .clock
  · subst hop
    obtain ⟨s, c'', -, hstep, -, h', -⟩ := h.clock (admits_of_step hs)
    obtain rfl := Option.some.inj (hstep.symm.trans hs)
    exact h'
  · exact (h.step_other hop hs).wellFormed

theorem wellFormed_boot {tasks : TaskId → Task} {main idle : TaskId} {clockIncMs : ℕ} (hne : main ≠ idle)
    (hboot : boot tasks main idle clockIncMs = some c) : c.WellFormed := by
  obtain ⟨s, hs, rfl⟩ := Option.map_eq_some_iff.mp hboot
  obtain ⟨d, place, hthreads, h⟩ := @Threads.assigned_boot tasks main idle hne
  obtain ⟨s', hs', rfl⟩ := Option.map_eq_some_iff.mp hthreads
  obtain rfl : s' = s := Option.some.inj (hs'.symm.trans hs)
  refine ⟨⟨place, h⟩, ?_⟩
  obtain ⟨⟨s₁, pid⟩, hnew, rfl⟩ := Option.map_eq_some_iff.mp hs
  have hempty : (schedulerInitialize tasks main).Ordered := List.Pairwise.nil
  exact hempty.queueNew (by simp [schedulerInitialize]) hnew

/-! ## One sleeper -/

/-- The task is on `blocked` until the time `d`. -/
structure Sleeps (c : Timed) (t : TaskId) (d : UInt64) : Prop where
  wellFormed : c.WellFormed
  mem : t ∈ c.queues blocked
  deadline : c.deadline t = d

/-- The step is no tick that reaches the time `d`. -/
def Before (d : UInt64) (c : Timed) (op : TimedOp) : Prop := op = .clock → c.tick.nowNs < d

/-- A sleeper is nowhere else. -/
theorem Sleeps.not_ready {d : UInt64} (h : c.Sleeps t d) : t ∉ c.ready ∧ c.current ≠ some t := by
  obtain ⟨⟨⟨place, hp⟩, -⟩, hmem, -⟩ := h
  have hplace : place t = some (.queue blocked) := (hp.placed.queues blocked t).mp hmem
  refine ⟨fun hready => ?_, hp.current_ne hplace (by simp)⟩
  simp [(hp.placed.ready t).mp hready] at hplace

/-- It sleeps on until a tick reaches its deadline. -/
theorem Sleeps.step {d : UInt64} {op : TimedOp} (h : c.Sleeps t d) (hbefore : Before d c op)
    (hs : c.step op = some c') : c'.Sleeps t d := by
  by_cases hop : op = .clock
  · subst hop
    obtain ⟨s, c'', -, hstep, hexact, h', -, hdead, hq, -⟩ := h.wellFormed.clock (admits_of_step hs)
    obtain rfl := Option.some.inj (hstep.symm.trans hs)
    refine ⟨h', ?_, by rw [hdead, h.deadline]⟩
    rw [hq]
    refine hexact.stay ▸ List.mem_filter.mpr ⟨h.mem, ?_⟩
    rw [h.deadline]
    exact decide_eq_true (hbefore rfl)
  · have hk := h.wellFormed.step_other hop hs
    obtain ⟨hmem, hdead⟩ := hk.blocked t h.mem
    exact ⟨hk.wellFormed, hmem, hdead.trans h.deadline⟩

/-- The tick that reaches the deadline makes it ready. -/
theorem Sleeps.wakes {d : UInt64} (h : c.Sleeps t d) (hs : c.step .clock = some c') (hd : d ≤ c'.nowNs) :
    t ∉ c'.queues blocked ∧ (t ∈ c'.ready ∨ c'.current = some t) := by
  obtain ⟨s, c'', -, hstep, hexact, -, hnow, -, hq, hsched⟩ := h.wellFormed.clock (admits_of_step hs)
  obtain rfl := Option.some.inj (hstep.symm.trans hs)
  rw [hnow] at hd
  have hready : t ∈ s.ready := by
    refine hexact.ready.mem_iff.mpr (List.mem_append_right _ (List.mem_filter.mpr ⟨h.mem, ?_⟩))
    rw [h.deadline]
    exact decide_eq_true hd
  constructor
  · rw [hq]
    intro hmem
    have hstay : t ∈ (c.queues blocked).filter fun t => c.tick.nowNs < c.deadline t := hexact.stay ▸ hmem
    have hlt := of_decide_eq_true (List.mem_filter.mp hstay).2
    rw [h.deadline] at hlt
    exact UInt64.not_lt.mpr hd hlt
  · rcases hsched with heq | hsched
    · rw [heq]
      exact Or.inl hready
    · exact Sched.mem_ready_schedule hsched hready

end Timed

/-- **Timed sleep is exact to the tick.** From every state with the tasks in their places, whatever the
deadlines on `blocked`, in every run of the clock, the sleepers and the scheduler in which the time fits in
64 bits: the ready list is ordered by decreasing priority; a tick moves exactly the tasks whose deadlines
have passed to the ready list, once each, and leaves the others on `blocked` in their order; and a task on
`blocked` stays there, in no other place, until the first tick that reaches its deadline, which makes it
ready. -/
theorem clk_sleep_exact (c₀ c : Timed) (ops : List TimedOp) (h₀ : c₀.WellFormed)
    (hrun : run Timed.step c₀ ops = some c) :
    c.Ordered ∧
    (c.Admits .clock → ∃ (k : Clk) (c' : Timed), c.tick.clkWakeup = some k ∧ c.step .clock = some c' ∧
      c.WakesExactly k ∧ c'.queues = k.queues ∧
      (c'.toSched = k.toSched ∨ k.toSched.schedule = some c'.toSched)) ∧
    ∀ t ∈ c.queues blocked, ∀ ops' c', run Timed.step c ops' = some c' →
      Steps Timed.step (Timed.Before (c.deadline t)) c ops' →
      (t ∈ c'.queues blocked ∧ t ∉ c'.ready ∧ c'.current ≠ some t) ∧
        ∀ c'', c'.step .clock = some c'' → c.deadline t ≤ c''.nowNs →
          t ∉ c''.queues blocked ∧ (t ∈ c''.ready ∨ c''.current = some t) := by
  have h : c.WellFormed := run_invariant Timed.step (fun c op c' h hs => h.step hs) h₀ hrun
  refine ⟨h.2, fun ha => ?_, fun t ht ops' c' hrun' hbefore => ?_⟩
  · obtain ⟨s, c', hwake, hstep, hexact, -, -, -, hq, hsched⟩ := h.clock ha
    exact ⟨_, c', hwake, hstep, hexact, hq, hsched⟩
  · have hsleeps : c'.Sleeps t (c.deadline t) :=
      (always_of_steps (P := fun k => Timed.Sleeps k t (c.deadline t))
        (fun k op k' hk hb hs => hk.step hb hs) ⟨h, ht, rfl⟩ hbefore).last hrun'
    exact ⟨⟨hsleeps.mem, hsleeps.not_ready⟩, fun c'' hs hd => hsleeps.wakes hs hd⟩

/-- The main task sleeps for 15 ms: the second tick of 10 ms wakes it up. -/
theorem clk_sleep_exact_main :
    ∃ c₀ c, Timed.boot (fun _ => ⟨.ready, 0, 0, 0, 0, 0⟩) 0 1 10 = some c₀ ∧
      run Timed.step c₀ [.nanosleep .monotonic 0 (some ⟨0, 15000000⟩) true] = some c ∧
      c.queues blocked = [0] ∧
      ∃ c' c'', c.step .clock = some c' ∧ c'.step .clock = some c'' ∧ 0 ∈ c'.queues blocked ∧
        0 ∉ c''.queues blocked ∧ (0 ∈ c''.ready ∨ c''.current = some 0) := by
  have hrun : ((Timed.boot (fun _ => ⟨.ready, 0, 0, 0, 0, 0⟩) 0 1 10).bind fun c₀ =>
      (run Timed.step c₀ [.nanosleep .monotonic 0 (some ⟨0, 15000000⟩) true]).bind fun c =>
        (c.step .clock).bind fun c' => (c'.step .clock).map fun c'' =>
          (c.queues blocked, c.deadline 0, c.tick.nowNs, c''.nowNs)) =
      some ([0], 15000000, 10000000, 20000000) := by
    decide
  obtain ⟨c₀, hboot, hrun⟩ := Option.bind_eq_some_iff.mp hrun
  obtain ⟨c, hc, hrun⟩ := Option.bind_eq_some_iff.mp hrun
  obtain ⟨c', hc', hrun⟩ := Option.bind_eq_some_iff.mp hrun
  obtain ⟨c'', hc'', he⟩ := Option.map_eq_some_iff.mp hrun
  simp only [Prod.mk.injEq] at he
  obtain ⟨hq, hdead, hnow, hnow''⟩ := he
  obtain ⟨-, -, hsleep⟩ := clk_sleep_exact c₀ c _ (Timed.wellFormed_boot (by decide) hboot) hc
  have hbefore : Steps Timed.step (Timed.Before (c.deadline 0)) c [.clock] := by
    refine ⟨fun _ => ?_, fun _ _ => trivial⟩
    rw [hdead, hnow]
    decide
  have hone : run Timed.step c [.clock] = some c' := by
    rw [run_cons, hc']
    rfl
  obtain ⟨⟨hmem, -⟩, hwakes⟩ := hsleep 0 (by simp [hq]) [.clock] c' hone hbefore
  obtain ⟨hnot, hready⟩ := hwakes c'' hc'' (by rw [hdead, hnow'']; decide)
  exact ⟨c₀, c, hboot, hc, hq, c', c'', hc', hc'', hmem, hnot, hready⟩

end I80k.Kernel

import I80k.Kernel.SchedulerFrame
import I80k.Kernel.SchedulerInvariant

/-!
# The clock

`kernel/clk.c` counts the ticks of a timer, wakes up the tasks whose deadlines have passed, and lets the
scheduler switch tasks at every second tick. A task that waits for a deadline sleeps on the list `blocked`,
with a pointer to the deadline.

What a task sleeps with is a pointer. Here it is the eight bytes at the address: `clk_wakeup` reads all of
them as a deadline, `scheduler_exit` the first two as a pid.

## Main definitions

* `Clk`: the scheduler and the data of `clk.c`
* `Clk.clkWakeup`, `Clk.clkHandler`: what happens at a tick
* `Clk.clkNanosleep`: a sleep until a deadline

## Main results

* `Clk.clkWakeup_placed`: the tasks that are woken up go from `blocked` to the ready list
-/

namespace I80k.Kernel

/-- The list of the tasks that wait for a deadline, the first of the lists of the drivers. -/
def blocked : WaitQueue := .device 0

/-- What a pointer to these bytes points to, as a `pid_t`. -/
def asPid (data : UInt64) : Pid := data.toUInt16.toInt16

/-- The data of `clk.c`, and the scheduler. -/
structure Clk extends Sched where
  /-- `CLOCK_INC_MS` of the board. -/
  clockIncMs : ℕ
  ticks : UInt64
  nowNs : UInt64
  /-- What the `wait_state` of a task points to, as a deadline. -/
  deadline : TaskId → UInt64

/-- `MS_TO_NS`. -/
def msToNs (ms : ℕ) : UInt64 := UInt64.ofNat (ms * 1000000)

/-- `S_TO_NS`. -/
def sToNs (s : Int64) : Int64 := s * 1000000000

/-- `enum clockid`. -/
inductive Clockid
  | realtime
  | monotonic
  | boottime
  | processCputimeId
  deriving DecidableEq

/-- `struct timespec`. -/
structure Timespec where
  tvSec : Int64
  tvNsec : Int64
  deriving DecidableEq

/-- `flags & TIMER_ABSTIME`. -/
def timerAbstime (flags : Int16) : Prop := flags &&& 4 ≠ 0

instance : DecidablePred timerAbstime := fun _ => inferInstanceAs (Decidable (_ ≠ _))

namespace Clk

/-- One turn of the loop of `clk_wakeup`. -/
def unblock (c : Clk) (s : Sched) (t : TaskId) : Option Sched :=
  if c.deadline t ≤ c.nowNs then (s.listDelete blocked t).schedulerWakeUp (some t) else some s

/-- Wakes up the tasks that have passed their deadlines. The loop takes the next task before it deletes
one, so that it goes through the list as it was (`clkWakeup_inMemory`, in memory). -/
def clkWakeup (c : Clk) : Option Clk :=
  if c.queues blocked = [] then some c
  else ((c.queues blocked).foldlM c.unblock c.toSched).map fun s => { c with toSched := s }

/-- The clock goes on by a tick. -/
def tick (c : Clk) : Clk := { c with ticks := c.ticks + 1, nowNs := c.nowNs + msToNs c.clockIncMs }

/-- The handler of the interrupt. -/
def clkHandler (c : Clk) : Option Clk :=
  c.tick.clkWakeup.bind fun c =>
    if c.ticks &&& 1 = 0 then c.toSched.schedule.map fun s => { c with toSched := s } else some c

/-- `scheduler_sleep_on(queue, &data)`. -/
def sleepOn (c : Clk) (queue : WaitQueue) (data : UInt64) : Option Clk :=
  c.current.bind fun cur => (c.schedulerSleepOn (some queue) (asPid data)).map fun s =>
    { c with toSched := s, deadline := Function.update c.deadline cur data }

/-- How `clk_nanosleep` ends: it returns, or goes to sleep, to return 0 when the task runs again. -/
inductive Nanosleep
  | returned (value : Int16)
  | slept (c : Clk)

/-- The deadline that `clk_nanosleep` computes. -/
def deadlineOf (c : Clk) (flags : Int16) (request : Timespec) : UInt64 :=
  if timerAbstime flags then (sToNs request.tvSec + request.tvNsec).toUInt64
  else c.nowNs + (sToNs request.tvSec).toUInt64 + request.tvNsec.toUInt64

/-- Sleeps until a deadline. `remain` says whether that pointer is there. -/
def clkNanosleep (c : Clk) (clockid : Clockid) (flags : Int16) (request : Option Timespec)
    (remain : Bool) : Option Nanosleep :=
  match request with
  | none => some (.returned errInval)
  | some request =>
    if clockid ≠ .monotonic ∨ ¬ remain then some (.returned errInval)
    else
      let deadline := c.deadlineOf flags request
      if deadline ≤ c.nowNs then some (.returned 0)
      else (c.sleepOn blocked deadline).map .slept

variable {c : Clk} {place : TaskId → Option Place}

/-! ## The loop of `clk_wakeup` -/

/-- The turns of the loop: the tasks that are woken up go to the ready list, the others stay. -/
theorem foldlM_unblock (c : Clk) {s : Sched} {l : List TaskId} (h : s.Placed place) (hnd : l.Nodup)
    (hl : ∀ t ∈ l, place t = some (.queue blocked)) :
    ∃ s' place', l.foldlM c.unblock s = some s' ∧ s'.current = s.current ∧ s'.Placed place' ∧
      ∀ u, place' u = if u ∈ l ∧ c.deadline u ≤ c.nowNs then some .ready else place u := by
  -- Induction on the tasks to come, for all places of them.
  induction l generalizing s place with
  | nil => exact ⟨s, place, rfl, rfl, h, by simp⟩
  | cons t l ih =>
    obtain ⟨ht, hnd⟩ := List.nodup_cons.mp hnd
    rw [List.foldlM_cons]
    by_cases hpass : c.deadline t ≤ c.nowNs
    · -- The task leaves `blocked`, and the rest of the list is still there.
      obtain ⟨s₁, hwake, hcur, h₁⟩ := (h.listDelete (hl t (by simp))).wakeUp (t := t) (by simp)
      rw [Function.update_idem] at h₁
      have hrest : ∀ u ∈ l, Function.update place t (some .ready) u = some (.queue blocked) := by
        intro u hu
        have hne : u ≠ t := fun heq => ht (heq ▸ hu)
        simpa [hne] using hl u (by simp [hu])
      obtain ⟨s', place', hfold, hcur', h', hmove⟩ := ih h₁ hnd hrest
      refine ⟨s', place', ?_, hcur'.trans hcur, h', fun u => ?_⟩
      · simp [unblock, hpass, hwake, hfold]
      · rw [hmove]
        by_cases hu : u = t
        · simp [hu, ht, hpass]
        · simp [hu]
    · obtain ⟨s', place', hfold, hcur', h', hmove⟩ := ih h hnd fun u hu => hl u (by simp [hu])
      refine ⟨s', place', ?_, hcur', h', fun u => ?_⟩
      · simp [unblock, hpass, hfold]
      · rw [hmove]
        by_cases hu : u = t
        · simp [hu, ht, hpass]
        · simp [hu]

/-- The loop writes to no other tasks. -/
theorem foldlM_unblock_tasks {s s' : Sched} {l : List TaskId} {u : TaskId} (hu : u ∉ l)
    (h : l.foldlM c.unblock s = some s') : s'.tasks u = s.tasks u := by
  induction l generalizing s with
  | nil => exact (Option.some.inj h) ▸ rfl
  | cons t l ih =>
    rw [List.foldlM_cons] at h
    obtain ⟨s₁, hturn, hrest⟩ := Option.bind_eq_some_iff.mp h
    rw [ih (fun hmem => hu (by simp [hmem])) hrest]
    unfold unblock at hturn
    split_ifs at hturn
    · have hne : u ≠ t := fun heq => hu (by simp [heq])
      rw [Sched.wakeUp_tasks hturn hne]
      rfl
    · exact (Option.some.inj hturn) ▸ rfl

/-- A wake-up moves the tasks that have passed their deadlines from `blocked` to the ready list. -/
theorem clkWakeup_placed (h : c.Placed place) :
    ∃ s' place', c.clkWakeup = some { c with toSched := s' } ∧ s'.current = c.current ∧
      s'.Placed place' ∧ (∀ u, place' u =
        if place u = some (.queue blocked) ∧ c.deadline u ≤ c.nowNs then some .ready else place u) ∧
      ∀ u, place u ≠ some (.queue blocked) → s'.tasks u = c.tasks u := by
  have hl : ∀ t ∈ c.queues blocked, place t = some (.queue blocked) := fun t ht => (h.queues _ t).mp ht
  obtain ⟨s', place', hfold, hcur, h', hmove⟩ := c.foldlM_unblock h (h.nodup_queues _) hl
  refine ⟨s', place', ?_, hcur, h', fun u => ?_, fun u hu => ?_⟩
  · unfold clkWakeup
    split_ifs with hempty
    · rw [hempty] at hfold
      obtain rfl : c.toSched = s' := Option.some.inj hfold
      rfl
    · rw [hfold]
      rfl
  · rw [hmove]
    simp only [h.queues]
  · exact foldlM_unblock_tasks (fun hmem => hu (hl u hmem)) hfold

end Clk

/-! ## Wake-ups and places -/

/-- Tasks that were on a queue may be ready, and all others are where they were. -/
def Woken (place place' : TaskId → Option Place) : Prop :=
  ∀ t, place' t = place t ∨ (∃ q, place t = some (.queue q)) ∧ place' t = some .ready

namespace Woken

variable {place place' : TaskId → Option Place}

theorem none_iff (h : Woken place place') (t : TaskId) : place' t = none ↔ place t = none := by
  rcases h t with hm | ⟨⟨q, hq⟩, hm⟩
  · rw [hm]
  · simp [hq, hm]

theorem current_iff (h : Woken place place') (t : TaskId) :
    place' t = some .current ↔ place t = some .current := by
  rcases h t with hm | ⟨⟨q, hq⟩, hm⟩
  · rw [hm]
  · simp [hq, hm]

/-- A task that can run still can. -/
theorem runnable (h : Woken place place') {t : TaskId}
    (ht : place t = some .current ∨ place t = some .ready) :
    place' t = some .current ∨ place' t = some .ready := by
  rcases h t with hm | ⟨-, hm⟩
  · rwa [hm]
  · exact Or.inr hm

/-- The tasks that `clk_wakeup` wakes up. -/
theorem of_passed {passed : TaskId → Prop} [DecidablePred passed]
    (h : ∀ t, place' t =
      if place t = some (.queue blocked) ∧ passed t then some .ready else place t) : Woken place place' := by
  intro t
  rw [h t]
  split_ifs with hif
  · exact Or.inr ⟨⟨blocked, hif.1⟩, rfl⟩
  · exact Or.inl rfl

end Woken

end I80k.Kernel

import I80k.Kernel.SchedulerFrame
import I80k.Kernel.SchedulerInvariant
import I80k.Kernel.SchedulerWait

/-!
# Wake-ups of tasks that wait for others

A task that calls `scheduler_wait` looks at the zombies, and goes to sleep if none of them is the one it
waits for. A task that exits becomes a zombie and looks at the waiters. No wake-up is lost between the two,
as each is done as a whole; but `scheduler_exit` stops at the first waiter that it finds. Where several
tasks wait for the same one, the others sleep on, with the zombie still there.

## Main definitions

* `Parents`: a scheduler with its idle task, whose tasks wait for each other
* `Sched.AwaitedBy`: the zombie that a waiter waits for
* `Parents.NoLostWakeup`: no task sleeps while a zombie that it waits for is there
* `Parents.OneWaiter`: the step is not an exit that several tasks wait for

## Main results

* `Parents.Inv.exit`: what an exit does to the waiters for it
* `no_lost_wakeup_iff`: no wake-up is lost as long as no two tasks wait for one that exits
-/

namespace I80k.Kernel

open StepSystem

namespace Sched

variable {s s' : Sched} {t cur : TaskId}

/-! ## Waiters and zombies -/

/-- The zombie `z` is one that the waiter `t` waits for: the one with the pid, or any of its children. -/
def AwaitedBy (s : Sched) (t z : TaskId) : Prop :=
  if (s.tasks t).waitState = -1 then (s.tasks z).parent = (s.tasks t).pid
  else (s.tasks z).pid = (s.tasks t).waitState

/-- What `scheduler_exit` tests, for a task that can exit and a waiter that can be one. -/
theorem awaitedBy_iff {z : TaskId} (hwait : ¬ (s.tasks t).waitState < -1) (hpid : (s.tasks z).pid ≠ 0) :
    s.AwaitedBy t z ↔ s.WaitsFor z t := by
  unfold AwaitedBy WaitsFor
  split_ifs with hany
  · have hneg : ¬ (0 : Pid) < -1 := by decide
    simp [hany, hneg, eq_comm]
  · constructor
    · intro hz
      -- A pid that is neither 0, nor -1, nor below is positive.
      have hpos : 0 < (s.tasks t).waitState := by
        have hne : (s.tasks t).waitState ≠ 0 := hz ▸ hpid
        rw [Int16.lt_iff_toInt_lt] at hwait ⊢
        have h₀ : (s.tasks t).waitState.toInt ≠ 0 := fun h => hne (Int16.toInt_inj.mp h)
        have h₁ : (s.tasks t).waitState.toInt ≠ -1 := fun h => hany (Int16.toInt_inj.mp h)
        simp only [show (-1 : Int16).toInt = -1 from rfl, show (0 : Int16).toInt = 0 from rfl] at hwait ⊢
        omega
      exact Or.inl ⟨hpos, hz⟩
    · rintro (⟨-, hz⟩ | ⟨h, -⟩)
      · exact hz
      · exact absurd h hany

/-- A turn of `scheduler_wait` that finds nothing leaves no zombie that it waits for. -/
theorem findDead_eq_none {pid : Pid} (h : s.findDead cur pid = none) :
    ∀ z ∈ s.zombies, ¬ (if pid = -1 then (s.tasks z).parent = (s.tasks cur).pid
      else (s.tasks z).pid = pid) := by
  unfold findDead at h
  intro z hz
  split_ifs at h ⊢
  · simpa using List.find?_eq_none.mp h z hz
  · simpa using List.find?_eq_none.mp h z hz

end Sched

/-! ## Runs -/

/-- A scheduler with its idle task, whose other tasks wait for each other. -/
structure Parents extends Reaping where
  idle : TaskId

namespace Parents

/-- The tasks, without their calls. -/
def threads (c : Parents) : Threads := { toSched := c.toSched, created := c.created, idle := c.idle }

/-- The steps that happen: the idle task only executes `hlt`, and is interrupted. -/
def Admits (c : Parents) (op : WaitOp) : Prop :=
  c.toReaping.Admits op ∧ match op with
    | .schedule => True
    | _ => c.current ≠ some c.idle

instance (c : Parents) : DecidablePred c.Admits
  | .schedule => inferInstanceAs (Decidable (_ ∧ True))
  | .queueNew _ _ => inferInstanceAs (Decidable (_ ∧ _ ≠ _))
  | .exit _ => inferInstanceAs (Decidable (_ ∧ _ ≠ _))
  | .wait _ _ => inferInstanceAs (Decidable (_ ∧ _ ≠ _))
  | .resume => inferInstanceAs (Decidable (_ ∧ _ ≠ _))

/-- One step. -/
def step (c : Parents) (op : WaitOp) : Option Parents :=
  if c.Admits op then (c.toReaping.exec op).map fun r => { c with toReaping := r } else none

/-- The scheduler after `scheduler_initialize` and `kthread_initialize`. -/
def boot (tasks : TaskId → Task) (main idle : TaskId) : Option Parents :=
  (kthreadInitialize (schedulerInitialize tasks main) idle).map fun s =>
    { toSched := s, created := [idle, main], pending := fun _ => none, freed := [], idle := idle }

/-- No task sleeps on `waiters` while a zombie that it waits for is there, and not reaped. -/
def NoLostWakeup (c : Parents) : Prop :=
  ∀ t ∈ c.queues .waiters, ∀ z ∈ c.zombies, z ∉ c.freed → ¬ c.AwaitedBy t z

/-- The step is not an exit of a task that several tasks wait for. -/
def OneWaiter (c : Parents) : WaitOp → Prop
  | .exit status => c.Admits (.exit status) → ∀ cur, c.current = some cur → (c.tasks cur).pid ≠ 0 →
    (c.queues .waiters).countP (fun t => c.WaitsFor cur t) ≤ 1
  | _ => True

/-- What a step does. -/
inductive Effect (c c' : Parents) : WaitOp → Prop
  | schedule (h : c.toSched.schedule = some c'.toSched) (hcreated : c'.created = c.created)
    (hfreed : c'.freed = c.freed) : Effect c c' .schedule
  | queueNew {t : TaskId} {prio : ℤ} {pid : Pid} (hnew : t ∉ c.created)
    (h : c.schedulerQueueNew t prio = some (c'.toSched, pid)) (hcreated : c'.created = t :: c.created)
    (hfreed : c'.freed = c.freed) : Effect c c' (.queueNew t prio)
  | exit {status : Int16} (hidle : c.current ≠ some c.idle)
    (h : c.schedulerExit status = some c'.toSched) (hcreated : c'.created = c.created)
    (hfreed : c'.freed = c.freed) : Effect c c' (.exit status)
  | returned {op : WaitOp} (h : c'.toSched = c.toSched) (hcreated : c'.created = c.created)
    (hfreed : c'.freed = c.freed ∨ ∃ t ∈ c.zombies, c'.freed = t :: c.freed) : Effect c c' op
  | slept {op : WaitOp} {cur : TaskId} {pid : Pid} (hidle : c.current ≠ some c.idle)
    (hcur : c.current = some cur) (hpid : ¬ pid < -1) (hnone : c.findDead cur pid = none)
    (h : c.schedulerSleepOn (some .waiters) pid = some c'.toSched) (hcreated : c'.created = c.created)
    (hfreed : c'.freed = c.freed) : Effect c c' op

variable {c c' : Parents} {op : WaitOp}

theorem effect_turn {pid : Pid} {options : Int16} {r : Reaping} (hidle : c.current ≠ some c.idle)
    (h : c.toReaping.turn pid options = some r) : Effect c { c with toReaping := r } op := by
  obtain ⟨cur, hcur, hw⟩ := Option.bind_eq_some_iff.mp h
  obtain ⟨w, hturn, rfl⟩ := Option.map_eq_some_iff.mp hw
  cases w with
  | returned value => exact .returned rfl rfl (Or.inl rfl)
  | reaped t dead wstatus =>
    exact .returned rfl rfl (Or.inr ⟨t, Sched.findDead_mem (schedulerWait_reaped hturn).2, rfl⟩)
  | slept s =>
    -- Only a call that finds no zombie, and may wait, sleeps.
    by_cases hpid : pid < -1
    · simp [schedulerWait, hpid] at hturn
    · cases hfind : c.findDead cur pid with
      | some t => simp [schedulerWait, hpid, hfind] at hturn
      | none =>
        by_cases hang : noHang options
        · simp [schedulerWait, hpid, hfind, hang] at hturn
        · refine .slept hidle hcur hpid hfind ?_ rfl rfl
          simpa [schedulerWait, hpid, hfind, hang] using hturn

theorem effect_step (h : c.step op = some c') : Effect c c' op ∧ c'.idle = c.idle := by
  rw [step] at h
  split_ifs at h with ha
  obtain ⟨r, hr, rfl⟩ := Option.map_eq_some_iff.mp h
  refine ⟨?_, rfl⟩
  cases op with
  | schedule =>
    obtain ⟨s, hs, rfl⟩ := Option.map_eq_some_iff.mp hr
    exact .schedule hs rfl rfl
  | queueNew t prio =>
    obtain ⟨⟨s, pid⟩, hs, rfl⟩ := Option.map_eq_some_iff.mp hr
    exact .queueNew ha.1.2 hs rfl rfl
  | exit status =>
    obtain ⟨s, hs, rfl⟩ := Option.map_eq_some_iff.mp hr
    exact .exit ha.2 hs rfl rfl
  | wait pid options => exact effect_turn ha.2 hr
  | resume =>
    obtain ⟨call, -, ht⟩ := Option.bind_eq_some_iff.mp hr
    exact effect_turn ha.2 ht

/-! ## The invariant -/

/-- The tasks are in their places, what they wait for is a pid or any child, no zombie has the pid of the
main task, and what is freed was a zombie. -/
structure Inv (c : Parents) : Prop where
  assigned : ∃ place, c.threads.Assigned place
  waits : ∀ t ∈ c.queues .waiters, ¬ (c.tasks t).waitState < -1
  pids : ∀ z ∈ c.zombies, (c.tasks z).pid ≠ 0
  freed : ∀ z ∈ c.freed, z ∈ c.zombies

/-- The steps of the scheduler keep the tasks in their places. -/
theorem Inv.assigned_exec (h : Inv c) (op : SchedOp) (ha : c.threads.Admits op)
    (hexec : c.threads.exec op = some c'.threads) : ∃ place, c'.threads.Assigned place := by
  obtain ⟨place, hplace⟩ := h.assigned
  exact hplace.of_exec ha hexec

/-- What is on a list was created. -/
theorem Inv.created_of_waiter (h : Inv c) {t : TaskId} (ht : t ∈ c.queues .waiters) : t ∈ c.created := by
  obtain ⟨place, hplace⟩ := h.assigned
  exact hplace.partition.known t (.queue .waiters) ht

theorem Inv.created_of_zombie (h : Inv c) {z : TaskId} (hz : z ∈ c.zombies) : z ∈ c.created := by
  obtain ⟨place, hplace⟩ := h.assigned
  exact hplace.partition.known z .zombies hz

/-- The current task is not a zombie. -/
theorem Inv.current_notMem (h : Inv c) {cur : TaskId} (hcur : c.current = some cur) :
    cur ∉ c.zombies := by
  intro hz
  obtain ⟨place, hplace⟩ := h.assigned
  have hpart := hplace.partition
  obtain ⟨p, -, huniq⟩ := hpart.place cur (h.created_of_zombie hz)
  have hsame : Place.current = Place.zombies :=
    (huniq .current hcur).trans (huniq .zombies hz).symm
  cases hsame

theorem awaitedBy_congr {t z : TaskId} (hs : c.SameTasks c'.toSched) :
    c'.AwaitedBy t z ↔ c.AwaitedBy t z := by
  unfold Sched.AwaitedBy
  simp only [hs.pid, hs.parent, hs.waitState]

/-- A step that leaves the tasks, the waiters and the zombies alone. -/
theorem NoLostWakeup.congr (h : NoLostWakeup c) (hs : c.SameTasks c'.toSched)
    (hwaiters : c'.queues .waiters = c.queues .waiters) (hz : c'.zombies = c.zombies)
    (hfreed : ∀ z ∈ c.freed, z ∈ c'.freed) : NoLostWakeup c' := by
  intro t ht z hzm hnf
  rw [awaitedBy_congr hs]
  exact h t (hwaiters ▸ ht) z (hz ▸ hzm) (mt (hfreed z) hnf)

/-! ## The steps -/

theorem Inv.schedule (h : Inv c) (hs : c.toSched.schedule = some c'.toSched)
    (hcreated : c'.created = c.created) (hidle : c'.idle = c.idle) (hfreed : c'.freed = c.freed) :
    Inv c' ∧ (NoLostWakeup c → NoLostWakeup c') := by
  obtain ⟨hsame, hz, hq⟩ := Sched.schedule_frame hs
  refine ⟨⟨h.assigned_exec .schedule trivial ?_, fun t ht => ?_, fun z hzm => ?_, fun z hzf => ?_⟩,
    fun hn => hn.congr hsame (by rw [hq]) hz (by rw [hfreed]; exact fun _ => id)⟩
  · simp [Threads.exec, threads, hs, hcreated, hidle]
  · rw [hsame.waitState]
    exact h.waits t (hq ▸ ht)
  · rw [hsame.pid]
    exact h.pids z (hz ▸ hzm)
  · rw [hz]
    exact h.freed z (hfreed ▸ hzf)

theorem Inv.queueNew (h : Inv c) {t : TaskId} {prio : ℤ} {pid : Pid} (hnew : t ∉ c.created)
    (hs : c.schedulerQueueNew t prio = some (c'.toSched, pid)) (hcreated : c'.created = t :: c.created)
    (hidle : c'.idle = c.idle) (hfreed : c'.freed = c.freed) :
    Inv c' ∧ (NoLostWakeup c → NoLostWakeup c') := by
  obtain ⟨hz, hq, htasks⟩ := Sched.queueNew_frame hs
  -- The new task is neither a waiter nor a zombie: they are as they were.
  have hwaiter : ∀ u ∈ c.queues .waiters, c'.tasks u = c.tasks u :=
    fun u hu => htasks u fun heq => hnew (heq ▸ h.created_of_waiter hu)
  have hzombie : ∀ u ∈ c.zombies, c'.tasks u = c.tasks u :=
    fun u hu => htasks u fun heq => hnew (heq ▸ h.created_of_zombie hu)
  refine ⟨⟨h.assigned_exec (.queueNew t prio) hnew ?_, fun u hu => ?_, fun z hzm => ?_,
    fun z hzf => ?_⟩, fun hn u hu z hzm hnf => ?_⟩
  · simp [Threads.exec, threads, hs, hcreated, hidle]
  · rw [hq] at hu
    rw [hwaiter u hu]
    exact h.waits u hu
  · rw [hz] at hzm
    rw [hzombie z hzm]
    exact h.pids z hzm
  · rw [hz]
    exact h.freed z (hfreed ▸ hzf)
  · rw [hq] at hu
    rw [hz] at hzm
    unfold Sched.AwaitedBy
    rw [hwaiter u hu, hzombie z hzm]
    exact hn u hu z hzm (hfreed ▸ hnf)

/-- A call that returns may have freed a zombie. -/
theorem Inv.returned (h : Inv c) (hs : c'.toSched = c.toSched) (hcreated : c'.created = c.created)
    (hidle : c'.idle = c.idle)
    (hfreed : c'.freed = c.freed ∨ ∃ t ∈ c.zombies, c'.freed = t :: c.freed) :
    Inv c' ∧ (NoLostWakeup c → NoLostWakeup c') := by
  have hthreads : c'.threads = c.threads := by simp [threads, hs, hcreated, hidle]
  have hsub : ∀ z ∈ c.freed, z ∈ c'.freed := by
    rcases hfreed with hfreed | ⟨t, -, hfreed⟩
    · simp [hfreed]
    · simp +contextual [hfreed]
  refine ⟨⟨hthreads ▸ h.assigned, hs ▸ h.waits, hs ▸ h.pids, fun z hz => ?_⟩,
    fun hn => hn.congr (hs ▸ .refl _) (by rw [hs]) (by rw [hs]) hsub⟩
  rw [hs]
  rcases hfreed with hfreed | ⟨t, ht, hfreed⟩
  · exact h.freed z (hfreed ▸ hz)
  · rw [hfreed] at hz
    rcases List.mem_cons.mp hz with rfl | hz
    · exact ht
    · exact h.freed z hz

/-- A task goes to sleep only if no zombie is one that it waits for. -/
theorem Inv.slept (h : Inv c) {cur : TaskId} {pid : Pid} (hnot : c.current ≠ some c.idle)
    (hcur : c.current = some cur) (hpid : ¬ pid < -1) (hnone : c.findDead cur pid = none)
    (hs : c.schedulerSleepOn (some .waiters) pid = some c'.toSched)
    (hcreated : c'.created = c.created) (hidle : c'.idle = c.idle) (hfreed : c'.freed = c.freed) :
    Inv c' ∧ (NoLostWakeup c → NoLostWakeup c') := by
  obtain ⟨hz, hq, hsame⟩ := Sched.sleepOn_frame hcur hs
  have hpids : ∀ u, (c'.tasks u).pid = (c.tasks u).pid := by
    intro u
    rw [hsame.pid]
    by_cases hu : u = cur <;> simp [Sched.modify, hu]
  have hparents : ∀ u, (c'.tasks u).parent = (c.tasks u).parent := by
    intro u
    rw [hsame.parent]
    by_cases hu : u = cur <;> simp [Sched.modify, hu]
  have hself : (c'.tasks cur).waitState = pid := by
    rw [hsame.waitState]
    simp [Sched.modify]
  have hother : ∀ u ≠ cur, (c'.tasks u).waitState = (c.tasks u).waitState := by
    intro u hu
    rw [hsame.waitState]
    simp [Sched.modify, hu]
  refine ⟨⟨h.assigned_exec (.sleepOn .waiters pid) hnot ?_, fun u hu => ?_, fun z hzm => ?_,
    fun z hzf => ?_⟩, fun hn u hu z hzm hnf => ?_⟩
  · have hs' : c.threads.schedulerSleepOn (some .waiters) pid = some c'.toSched := hs
    simp [Threads.exec, hs']
    simp [threads, hcreated, hidle]
  · by_cases hne : u = cur
    · rw [hne, hself]
      exact hpid
    · rw [hq] at hu
      rw [hother u hne]
      exact h.waits u ((List.mem_append.mp hu).resolve_right (by simpa using hne))
  · rw [hpids]
    exact h.pids z (hz ▸ hzm)
  · rw [hz]
    exact h.freed z (hfreed ▸ hzf)
  · -- The new waiter has just looked for a zombie, and found none.
    rw [hz] at hzm
    unfold Sched.AwaitedBy
    rw [hpids, hpids, hparents]
    by_cases hne : u = cur
    · rw [hne, hself]
      exact Sched.findDead_eq_none hnone z hzm
    · rw [hq] at hu
      rw [hother u hne]
      exact hn u ((List.mem_append.mp hu).resolve_right (by simpa using hne)) z hzm (hfreed ▸ hnf)

/-- The current task of pid 0 does not exit. -/
theorem exit_main {status : Int16} {cur : TaskId} (hcur : c.current = some cur)
    (hpid : (c.tasks cur).pid = 0) (hs : c.schedulerExit status = some c'.toSched) :
    c'.toSched = c.toSched := by
  simpa [Sched.schedulerExit, hcur, hpid, eq_comm] using hs

/-- Something with the property is left if there was more than one. -/
theorem exists_mem_eraseP {α : Type} {p : α → Bool} {l : List α} :
    (∃ a ∈ l.eraseP p, p a) ↔ 1 < l.countP p := by
  have hcount : (l.eraseP p).countP p = l.countP p - 1 := by
    by_cases hany : ∃ a ∈ l, p a
    · obtain ⟨a, ha, hpa⟩ := hany
      obtain ⟨b, as, bs, hno, hb, hl, herase⟩ := List.exists_of_eraseP ha hpa
      rw [herase, hl]
      simp [hb]
    · have hnone : ∀ a ∈ l, ¬ p a := fun a ha hpa => hany ⟨a, ha, hpa⟩
      rw [List.eraseP_of_forall_not hnone, List.countP_eq_zero.mpr hnone]
  rw [← List.countP_pos_iff, hcount]
  omega

/-- An exit loses a wake-up if and only if several tasks wait for the one that exits. -/
theorem Inv.exit (h : Inv c) {status : Int16} {cur : TaskId} (hnot : c.current ≠ some c.idle)
    (hcur : c.current = some cur) (hpid : (c.tasks cur).pid ≠ 0)
    (hs : c.schedulerExit status = some c'.toSched) (hcreated : c'.created = c.created)
    (hidle : c'.idle = c.idle) (hfreed : c'.freed = c.freed) :
    Inv c' ∧ (NoLostWakeup c →
      (NoLostWakeup c' ↔ (c.queues .waiters).countP (fun t => c.WaitsFor cur t) ≤ 1)) := by
  obtain ⟨hsame, hz, hq⟩ := Sched.exit_frame hcur hpid hs
  have hsub : ∀ t ∈ c'.queues .waiters, t ∈ c.queues .waiters := by
    rw [hq]
    exact fun t ht => List.mem_of_mem_eraseP ht
  have hinv : Inv c' := by
    refine ⟨h.assigned_exec (.exit status) hnot ?_, fun t ht => ?_, fun z hzm => ?_, fun z hzf => ?_⟩
    · have hs' : c.threads.schedulerExit status = some c'.toSched := hs
      simp [Threads.exec, hs']
      simp [threads, hcreated, hidle]
    · rw [hsame.waitState]
      exact h.waits t (hsub t ht)
    · rw [hsame.pid]
      rw [hz] at hzm
      rcases List.mem_append.mp hzm with hzm | hzm
      · exact h.pids z hzm
      · rwa [List.mem_singleton.mp hzm]
    · rw [hz]
      exact List.mem_append_left _ (h.freed z (hfreed ▸ hzf))
  have hnf : cur ∉ c.freed := fun hf => h.current_notMem hcur (h.freed cur hf)
  have hself : ∀ t ∈ c'.queues .waiters, (c'.AwaitedBy t cur ↔ c.WaitsFor cur t) := by
    intro t ht
    rw [awaitedBy_congr hsame]
    exact Sched.awaitedBy_iff (h.waits t (hsub t ht)) hpid
  refine ⟨hinv, fun hn => ?_⟩
  -- `eraseP` takes the first waiter off: another one is left if and only if there were two.
  rw [← not_lt, ← exists_mem_eraseP, ← hq]
  constructor
  · rintro hn' ⟨t, ht, hwait⟩
    refine hn' t ht cur ?_ (hfreed ▸ hnf) ((hself t ht).mpr (of_decide_eq_true hwait))
    simp [hz]
  · intro hnone t ht z hzm hnf'
    rw [hz] at hzm
    rcases List.mem_append.mp hzm with hzm | hzm
    · rw [awaitedBy_congr hsame]
      exact hn t (hsub t ht) z hzm (hfreed ▸ hnf')
    · rw [List.mem_singleton.mp hzm, hself t ht]
      exact fun hwait => hnone ⟨t, ht, decide_eq_true hwait⟩

/-- A step that meets the condition loses no wake-up. -/
theorem Inv.step (h : Inv c) (hstep : c.step op = some c') :
    Inv c' ∧ (NoLostWakeup c → c.OneWaiter op → NoLostWakeup c') := by
  obtain ⟨heffect, hidle⟩ := effect_step hstep
  cases heffect with
  | schedule hs hcreated hfreed =>
    obtain ⟨hinv, hkeep⟩ := h.schedule hs hcreated hidle hfreed
    exact ⟨hinv, fun hn _ => hkeep hn⟩
  | queueNew hnew hs hcreated hfreed =>
    obtain ⟨hinv, hkeep⟩ := h.queueNew hnew hs hcreated hidle hfreed
    exact ⟨hinv, fun hn _ => hkeep hn⟩
  | returned hs hcreated hfreed =>
    obtain ⟨hinv, hkeep⟩ := h.returned hs hcreated hidle hfreed
    exact ⟨hinv, fun hn _ => hkeep hn⟩
  | slept hnot hcur hpid hnone hs hcreated hfreed =>
    obtain ⟨hinv, hkeep⟩ := h.slept hnot hcur hpid hnone hs hcreated hidle hfreed
    exact ⟨hinv, fun hn _ => hkeep hn⟩
  | @exit status hnot hexit hcreated hfreed =>
    obtain ⟨place, hplace⟩ := h.assigned
    obtain ⟨cur, hcur⟩ := hplace.running
    have hcur : c.current = some cur := hcur
    -- The exit of the main task does nothing.
    by_cases hpid : (c.tasks cur).pid = 0
    · obtain ⟨hinv, hkeep⟩ := h.returned (exit_main hcur hpid hexit) hcreated hidle (Or.inl hfreed)
      exact ⟨hinv, fun hn _ => hkeep hn⟩
    · obtain ⟨hinv, hiff⟩ := h.exit hnot hcur hpid hexit hcreated hidle hfreed
      refine ⟨hinv, fun hn hone => (hiff hn).mpr (hone ?_ cur hcur hpid)⟩
      by_contra ha
      simp [Parents.step, ha] at hstep

/-- An exit of a task that several tasks wait for loses a wake-up. -/
theorem Inv.step_of_not_oneWaiter (h : Inv c) (hn : NoLostWakeup c) (hone : ¬ c.OneWaiter op) :
    ∃ c', c.step op = some c' ∧ ¬ NoLostWakeup c' := by
  cases op with
  | exit status =>
    simp only [OneWaiter, Classical.not_imp, not_forall] at hone
    obtain ⟨ha, cur, hcur, hpid, hmany⟩ := hone
    obtain ⟨place, hplace⟩ := h.assigned
    -- The scheduler itself does not fail.
    obtain ⟨c₁, -, hexec, -⟩ := @Threads.Assigned.exec_exit _ _ status hplace ha.2
    obtain ⟨s, hs, -⟩ := Option.map_eq_some_iff.mp hexec
    have hs : c.toSched.schedulerExit status = some s := hs
    have hstep : c.step (.exit status) = some { c with toSched := s } := by
      simp [Parents.step, ha, Reaping.exec, hs]
    refine ⟨_, hstep, fun hn' => hmany ?_⟩
    have hexit := @Inv.exit c { c with toSched := s } h status cur ha.2 hcur hpid hs rfl rfl rfl
    exact (hexit.2 hn).mp hn'
  | _ => exact absurd trivial hone

theorem inv_boot {tasks : TaskId → Task} {main idle : TaskId} (hne : main ≠ idle)
    (hboot : boot tasks main idle = some c) : Inv c ∧ NoLostWakeup c := by
  obtain ⟨s, hs, rfl⟩ := Option.map_eq_some_iff.mp hboot
  obtain ⟨c₀, place, hthreads, hplace⟩ := @Threads.assigned_boot tasks main idle hne
  obtain ⟨s', hs', rfl⟩ := Option.map_eq_some_iff.mp hthreads
  obtain rfl : s' = s := Option.some.inj (hs'.symm.trans hs)
  obtain ⟨⟨s'', pid⟩, hnew, rfl⟩ := Option.map_eq_some_iff.mp hs
  obtain ⟨hz, hq, -⟩ := Sched.queueNew_frame hnew
  have hz : s''.zombies = [] := hz
  have hwaiters : s''.queues .waiters = [] := by
    rw [hq]
    rfl
  exact ⟨⟨⟨place, hplace⟩, by simp [hwaiters], by simp [hz], by simp⟩, by simp [NoLostWakeup, hwaiters]⟩

end Parents

/-- **No wake-up is lost, exactly.** In every run from the initialised scheduler: in none of its states does
a task sleep on `waiters` while a zombie is there that it waits for and that is not reaped, if and only if
no task exits while several tasks wait for it. -/
theorem no_lost_wakeup_iff (tasks : TaskId → Task) (main idle : TaskId) (hne : main ≠ idle) (c₀ : Parents)
    (hboot : Parents.boot tasks main idle = some c₀) (ops : List WaitOp) :
    Always Parents.step Parents.NoLostWakeup c₀ ops ↔ Steps Parents.step Parents.OneWaiter c₀ ops := by
  obtain ⟨hinv, hn⟩ := Parents.inv_boot hne hboot
  refine always_iff_steps (I := Parents.Inv) (fun c op c' hi hp ho hs => ?_)
    (fun c op hi hp ho => hi.step_of_not_oneWaiter hp ho) hinv hn
  obtain ⟨hi', hkeep⟩ := hi.step hs
  exact ⟨hi', hkeep hp ho⟩

/-- The main task waits for its child, which exits. -/
theorem no_lost_wakeup_child :
    ∃ c₀, Parents.boot (fun _ => ⟨.ready, 0, 0, 0, 0, 0⟩) 0 1 = some c₀ ∧
      (Always Parents.step Parents.NoLostWakeup c₀ [.queueNew 2 5, .wait (-1) 0, .exit 3, .resume] ↔
        Steps Parents.step Parents.OneWaiter c₀ [.queueNew 2 5, .wait (-1) 0, .exit 3, .resume]) := by
  have hsome : (Parents.boot (fun _ => ⟨.ready, 0, 0, 0, 0, 0⟩) 0 1).isSome := by decide
  obtain ⟨c₀, hboot⟩ := Option.isSome_iff_exists.mp hsome
  exact ⟨c₀, hboot, no_lost_wakeup_iff _ 0 1 (by decide) c₀ hboot _⟩

/-- Task 2 waits for task 3 by its pid, and the main task for any of its children. When task 3 exits, only
the first of them is woken up. -/
theorem not_always_noLostWakeup_two :
    ∃ c₀, Parents.boot (fun _ => ⟨.ready, 0, 0, 0, 0, 0⟩) 0 1 = some c₀ ∧
      ¬ Always Parents.step Parents.NoLostWakeup c₀
        [.queueNew 2 5, .queueNew 3 4, .schedule, .wait 3 0, .schedule, .wait (-1) 0, .exit 0] := by
  have hrun : ((Parents.boot (fun _ => ⟨.ready, 0, 0, 0, 0, 0⟩) 0 1).bind fun c₀ =>
      run Parents.step c₀
        [.queueNew 2 5, .queueNew 3 4, .schedule, .wait 3 0, .schedule, .wait (-1) 0, .exit 0]).map
      (fun c => (c.queues .waiters, c.zombies, c.freed, (c.tasks 0).waitState, (c.tasks 3).parent,
        (c.tasks 0).pid)) = some ([0], [3], [], -1, 0, 0) := by
    decide
  obtain ⟨c, hc, he⟩ := Option.map_eq_some_iff.mp hrun
  obtain ⟨c₀, hboot, hc⟩ := Option.bind_eq_some_iff.mp hc
  simp only [Prod.mk.injEq] at he
  obtain ⟨hwaiters, hzombies, hfreed, hwait, hparent, hpid⟩ := he
  refine ⟨c₀, hboot, fun h => ?_⟩
  have hlost := h.last hc 0 (by simp [hwaiters]) 3 (by simp [hzombies]) (by simp [hfreed])
  exact hlost (by simp [Sched.AwaitedBy, hwait, hparent, hpid])

end I80k.Kernel

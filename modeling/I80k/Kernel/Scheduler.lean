import I80k.Lib.Run
import I80k.Kernel.Error

/-!
# The scheduler

`kernel/core/scheduler.c` keeps the running task in `current` and every other task on one of its
lists: `ready`, ordered by decreasing priority, `zombies`, or a queue that the task sleeps on. The
lists are intrusive, through the `node` of the task; they are modelled by the sequences of their
tasks, in order.

A null pointer is `none` among the tasks. An operation that ends in `assert(0)`, or that reads a
field through a null `current`, is `none` as a whole.

## Main definitions

* `Task`, `Sched`: a task, and the data of `scheduler.c`
* `taskPut`, `taskFind`, `taskFindChildOf`: the operations on a list of tasks
* `schedule`, `schedulerQueueNew`, `schedulerExit`, `schedulerSleepOn`, `schedulerWakeUp`
* `schedulerWait`: one turn of the loop of `scheduler_wait`

## Main results

* `taskPut_spec`: the assertion of `task_put` is never reached, and the task is added once
-/

namespace I80k.Kernel

/-- `pid_t`, an `int` of 16 bits. -/
abbrev Pid := Int16

/-- `enum task_state`. -/
inductive TaskState
  | ready
  | running
  | waiting
  | zombie
  deriving DecidableEq, Repr

/-- `struct task`, without its context, its stack and its descriptors. -/
structure Task where
  state : TaskState
  pid : Pid
  parent : Pid
  prio : ℤ
  status : Int16
  /-- What `wait_state` points to: on `waiters`, the pid waited for. -/
  waitState : Pid

/-- The identity of a task structure. -/
abbrev TaskId := ℕ

/-- The lists that tasks sleep on: `waiters` of the scheduler, and those of the drivers. -/
inductive WaitQueue
  | waiters
  | device (id : ℕ)
  deriving DecidableEq, Repr

/-- The data of `scheduler.c`, and the task structures. -/
structure Sched where
  tasks : TaskId → Task
  current : Option TaskId
  nextPid : Pid
  ready : List TaskId
  zombies : List TaskId
  queues : WaitQueue → List TaskId

namespace Sched

/-- Writes to the fields of one task. -/
def modify (s : Sched) (t : TaskId) (f : Task → Task) : Sched :=
  { s with tasks := Function.update s.tasks t (f (s.tasks t)) }

def setState (s : Sched) (t : TaskId) (state : TaskState) : Sched :=
  s.modify t fun task => { task with state }

/-- `list_delete(&task->node)`, for a task on `queue`. -/
def listDelete (s : Sched) (queue : WaitQueue) (t : TaskId) : Sched :=
  { s with queues := Function.update s.queues queue ((s.queues queue).erase t) }

/-- `list_add_before(queue, &task->node)`: the task becomes the last one of the queue. -/
def listAdd (s : Sched) (queue : WaitQueue) (t : TaskId) : Sched :=
  { s with queues := Function.update s.queues queue (s.queues queue ++ [t]) }

end Sched

/-! ## Lists of tasks -/

section Lists

variable (prio : TaskId → ℤ) (task : TaskId)

/-- The loop of `task_put`; it ends in `assert(0)` if every task has at least the priority of
`task`. -/
def taskInsert : List TaskId → Option (List TaskId)
  | [] => none
  | t :: ts => if prio t < prio task then some (task :: t :: ts) else (taskInsert ts).map (t :: ·)

/-- Adds `task` to a list ordered by decreasing priority. -/
def taskPut (list : List TaskId) : Option (List TaskId) :=
  match list.getLast? with
  | none => some [task]
  | some t => if prio task ≤ prio t then some (list ++ [task]) else taskInsert prio task list

variable {prio task}

theorem taskInsert_spec {list : List TaskId} (h : ∃ t ∈ list, prio t < prio task) :
    ∃ l, taskInsert prio task list = some l ∧ l.Perm (task :: list) := by
  induction list with
  | nil => simp at h
  | cons t ts ih =>
    by_cases hlt : prio t < prio task
    · exact ⟨_, if_pos hlt, List.Perm.refl _⟩
    · have hts : ∃ t ∈ ts, prio t < prio task := by simpa [hlt] using h
      obtain ⟨l, hl, hp⟩ := ih hts
      refine ⟨t :: l, by simp [taskInsert, hlt, hl], ?_⟩
      exact (hp.cons t).trans (List.Perm.swap task t ts)

/-- `task_put` adds the task to the list. If the last one has a lower priority the loop finds it at
the latest, so the assertion holds. -/
theorem taskPut_spec (prio : TaskId → ℤ) (task : TaskId) (list : List TaskId) :
    ∃ l, taskPut prio task list = some l ∧ l.Perm (task :: list) := by
  rcases List.eq_nil_or_concat' list with rfl | ⟨ts, t, rfl⟩
  · exact ⟨[task], rfl, List.Perm.refl _⟩
  · by_cases hle : prio task ≤ prio t
    · refine ⟨ts ++ [t] ++ [task], by simp [taskPut, hle], ?_⟩
      exact List.perm_append_singleton task (ts ++ [t])
    · have hlow : ∃ u ∈ ts ++ [t], prio u < prio task := ⟨t, by simp, not_le.mp hle⟩
      obtain ⟨l, hl, hp⟩ := taskInsert_spec hlow
      exact ⟨l, by simpa [taskPut, hle] using hl, hp⟩

end Lists

namespace Sched

/-- The first task of `list` that has the given pid. -/
def taskFind (s : Sched) (list : List TaskId) (pid : Pid) : Option TaskId :=
  list.find? fun t => (s.tasks t).pid = pid

/-- The first task of `list` whose parent has the given pid. -/
def taskFindChildOf (s : Sched) (list : List TaskId) (pid : Pid) : Option TaskId :=
  list.find? fun t => (s.tasks t).parent = pid

/-- `task_put(&ready, task)`. -/
def putReady (s : Sched) (t : TaskId) : Option Sched :=
  (taskPut (fun t => (s.tasks t).prio) t s.ready).map fun ready => { s with ready }

/-- `task_put` adds the task to the ready list, once. -/
theorem putReady_spec (s : Sched) (t : TaskId) :
    ∃ ready, s.putReady t = some { s with ready } ∧ ready.Perm (t :: s.ready) := by
  obtain ⟨ready, hput, hperm⟩ := taskPut_spec (fun t => (s.tasks t).prio) t s.ready
  exact ⟨ready, by rw [putReady, hput, Option.map_some], hperm⟩

/-! ## Operations -/

/-- Stops the current task and runs the next one. -/
def schedule (s : Sched) : Option Sched :=
  match s.current, s.ready with
  | some prev, next :: ready => do
    let s := { s with ready, current := some next }
    -- If the current task is still running, it is queued for a future run.
    let s ← if (s.tasks prev).state = .running then (s.setState prev .ready).putReady prev else some s
    some (s.setState next .running)
  | _, _ => some s

/-- Queues a new task, and returns its pid. -/
def schedulerQueueNew (s : Sched) (t : TaskId) (prio : ℤ) : Option (Sched × Pid) :=
  s.current.bind fun cur => do
    let pid := s.nextPid
    let s := { s with nextPid := s.nextPid + 1 }
    let s := s.modify t fun task => { task with
      pid := pid, parent := (s.tasks cur).pid, prio := prio, state := .ready }
    let s ← s.putReady t
    some (s, (s.tasks t).pid)

/-- Makes `task` ready. -/
def schedulerWakeUp (s : Sched) : Option TaskId → Option Sched
  | none => some s
  | some t => (s.setState t .ready).putReady t

/-- The waiter `t` waits for the death of `cur`: for its pid, or for any of its own children. -/
def WaitsFor (s : Sched) (cur t : TaskId) : Prop :=
  let pid := (s.tasks t).waitState
  0 < pid ∧ (s.tasks cur).pid = pid ∨ pid = -1 ∧ (s.tasks t).pid = (s.tasks cur).parent

instance (s : Sched) (cur t : TaskId) : Decidable (s.WaitsFor cur t) :=
  inferInstanceAs (Decidable (_ ∨ _))

/-- Wakes up the first waiter for the death of `cur`. -/
def wakeWaiter (s : Sched) (cur : TaskId) : Option Sched :=
  match (s.queues .waiters).find? fun t => s.WaitsFor cur t with
  | none => some s
  | some t => (s.listDelete .waiters t).schedulerWakeUp (some t)

/-- The current task exits with `status`; the main task, of pid 0, does not. -/
def schedulerExit (s : Sched) (status : Int16) : Option Sched :=
  match s.current with
  | none => some s
  | some cur =>
    if (s.tasks cur).pid = 0 then some s
    else do
      let s := s.modify cur fun task => { task with state := .zombie, status := status }
      let s := { s with zombies := s.zombies ++ [cur] }
      let s ← s.wakeWaiter cur
      s.schedule

/-- Nothing changes, or the current task becomes a zombie, its waiter is woken up, and another task goes on. -/
theorem exit_cases {s s' : Sched} {status : Int16} (h : s.schedulerExit status = some s') :
    s' = s ∨ ∃ cur s₁, s.current = some cur ∧ (s.tasks cur).pid ≠ 0 ∧
      ({ s.modify cur (fun task => { task with state := .zombie, status := status }) with
        zombies := s.zombies ++ [cur] } : Sched).wakeWaiter cur = some s₁ ∧ s₁.schedule = some s' := by
  unfold schedulerExit at h
  cases hcur : s.current with
  | none =>
    rw [hcur] at h
    exact .inl (Option.some.inj h).symm
  | some cur =>
    simp only [hcur] at h
    split_ifs at h with hpid
    · exact .inl (Option.some.inj h).symm
    · obtain ⟨s₁, hwake, hsched⟩ := Option.bind_eq_some_iff.mp h
      exact .inr ⟨cur, s₁, rfl, hpid, hwake, hsched⟩

/-- The current task goes to sleep on `queue`. -/
def schedulerSleepOn (s : Sched) (queue : Option WaitQueue) (sleepData : Pid) : Option Sched :=
  match queue with
  | none => some s
  | some queue => s.current.bind fun cur =>
    let s := s.modify cur fun task => { task with state := .waiting, waitState := sleepData }
    (s.listAdd queue cur).schedule

/-- The dead task that `scheduler_wait(pid)` finds when `cur` calls it. -/
def findDead (s : Sched) (cur : TaskId) (pid : Pid) : Option TaskId :=
  if pid = -1 then s.taskFindChildOf s.zombies (s.tasks cur).pid else s.taskFind s.zombies pid

end Sched

/-- `options & WNOHANG`. -/
def noHang (options : Int16) : Prop := options &&& 1 ≠ 0

instance : DecidablePred noHang := fun _ => inferInstanceAs (Decidable (_ ≠ _))

/-- How a turn of the loop of `scheduler_wait` ends. -/
inductive WaitTurn
  /-- The call returns without a task. -/
  | returned (value : Pid)
  /-- The call returns the pid of a dead task, with its status, and frees the task. -/
  | reaped (dead : TaskId) (pid : Pid) (wstatus : Int16)
  /-- The caller went to sleep; it takes another turn when it runs again. -/
  | slept (s : Sched)

/-- One turn of `scheduler_wait(pid, &wstatus, options)` by `cur`. -/
def schedulerWait (s : Sched) (cur : TaskId) (pid : Pid) (options : Int16) : Option WaitTurn :=
  if pid < -1 then some (.returned errNotSupp)
  else
    match s.findDead cur pid with
    | some t =>
      some (.reaped t (s.tasks t).pid (((s.tasks t).status &&& 0xff) <<< 8))
    | none =>
      if noHang options then some (.returned 0)
      else (s.schedulerSleepOn (some .waiters) pid).map .slept

/-- The main task, running, on empty lists. The structure comes from `calloc`. -/
def schedulerInitialize (tasks : TaskId → Task) (main : TaskId) : Sched where
  tasks := Function.update tasks main
    { state := .running, pid := 0, parent := -1, prio := 0, status := 0, waitState := 0 }
  current := some main
  nextPid := 0 + 1
  ready := []
  zombies := []
  queues := fun _ => []

/-- Starts the idle task, below every priority but one. -/
def kthreadInitialize (s : Sched) (idle : TaskId) : Option Sched :=
  (s.schedulerQueueNew idle (-32767)).map Prod.fst

end I80k.Kernel

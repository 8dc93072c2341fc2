import I80k.Kernel.TaskPut
import I80k.Kernel.SchedulerWait

/-!
# The scheduler in memory

The functions of `scheduler.c` on the nodes in memory, with the allocation of the task structures. A structure that
`scheduler_wait` has freed is still linked on `zombies`, and its memory is used again: by the next task, whose node
then is on `ready` while `zombies` points to it. So the lists are not sequences any more, and the functions are those of
`list.h`.

A pointer to a task is one to its node. What a pointer to freed memory reads is whatever is there. A write to it has no
result, since the memory belongs to someone else, and neither has a second `free` of it.

## Main definitions

* `Heads`, `NodeSched`: the heads of the lists, and the data of `scheduler.c` with the nodes
* `NodeSched.addTail`, `NodeSched.addHead`, `NodeSched.delete`: the functions of `list.h`, where their writes are valid
* `NodeSched.taskPut`, `NodeSched.schedule`, `NodeSched.queueNew`, `NodeSched.exit`, `NodeSched.wait`
* `NodeSched.step`: a step of the tasks, or of what uses the memory that is not theirs

## Main results

* `NodeSched.taskPut_spec`: `task_put` is the function on nodes
* `NodeSched.same_schedule`, `NodeSched.same_exit`, `NodeSched.wait_frame`: only a new task changes an identifier
* `NodeSched.queueNew_spec`: the identifier of a new task
-/

namespace I80k.Kernel

/-- The addresses of `ready`, `zombies` and `waiters`. -/
structure Heads where
  ready : NodePtr
  zombies : NodePtr
  waiters : NodePtr

/-- The data of `scheduler.c`, the task structures, and the nodes in memory. -/
structure NodeSched where
  heads : Heads
  nodes : Nodes
  tasks : NodePtr → Task
  current : Option NodePtr
  nextPid : Pid
  idle : NodePtr
  /-- The task structures that are allocated. -/
  live : List NodePtr
  /-- The arguments of the call of `scheduler_wait` that a task is inside of. -/
  pending : NodePtr → Option (Pid × Int16)

/-- The steps of the tasks. `resume` is another turn of the loop of `scheduler_wait`, and `overwrite` is a store by the
owner of memory that was a task structure, or will be one. -/
inductive NodeOp
  | schedule
  | queueNew (t : NodePtr) (prio : ℤ)
  | exit (status : Int16)
  | wait (pid : Pid) (options : Int16)
  | resume
  | overwrite (t : NodePtr) (node : ListNode) (task : Task)

namespace NodeSched

variable (s : NodeSched)

/-! ## Nodes -/

/-- One of the heads. -/
def IsHead (x : NodePtr) : Prop := x = s.heads.ready ∨ x = s.heads.zombies ∨ x = s.heads.waiters

/-- A node that can be written. -/
def Valid (x : NodePtr) : Prop := s.IsHead x ∨ x ∈ s.live

instance (x : NodePtr) : Decidable (s.IsHead x) := inferInstanceAs (Decidable (_ ∨ _ ∨ _))

instance (x : NodePtr) : Decidable (s.Valid x) := inferInstanceAs (Decidable (_ ∨ _))

/-- `list_add_tail`, and `list_add_before`. -/
def addTail (list item : NodePtr) : Option NodeSched :=
  if s.Valid list ∧ s.Valid item ∧ s.Valid (s.nodes list).prev then
    some { s with nodes := s.nodes.listAddTail list item }
  else none

/-- `list_add_after`. -/
def addHead (list item : NodePtr) : Option NodeSched :=
  if s.Valid list ∧ s.Valid item ∧ s.Valid (s.nodes list).next then
    some { s with nodes := s.nodes.listAddHead list item }
  else none

/-- `list_delete`. -/
def delete (item : NodePtr) : Option NodeSched :=
  if s.Valid item ∧ s.Valid (s.nodes item).next ∧ s.Valid (s.nodes item).prev then
    some { s with nodes := s.nodes.listDelete item }
  else none

/-- Writes to the fields of one task. -/
def modify (t : NodePtr) (f : Task → Task) : NodeSched :=
  { s with tasks := Function.update s.tasks t (f (s.tasks t)) }

def setState (t : NodePtr) (state : TaskState) : NodeSched := s.modify t fun task => { task with state }

/-! ## Lists of tasks -/

/-- More than the number of nodes in memory: a loop that takes so many turns does not end. -/
def turns : ℕ := 2 ^ 16 + 1

/-- A turn of the loop of `task_put`, that ends in `assert(0)` at the end of the list. -/
def putTurn (list task t : NodePtr) : NodePtr ⊕ Option NodeSched :=
  if t ≠ list then
    if (s.tasks t).prio < (s.tasks task).prio then .inr (s.addTail t task) else .inl (s.nodes t).next
  else .inr none

/-- `task_put`. -/
def taskPut (list task : NodePtr) : Option NodeSched :=
  if s.nodes.listIsEmpty list then s.addTail list task
  else if s.nodes.listPeekTail list ≠ 0 ∧ (s.tasks task).prio ≤ (s.tasks (s.nodes.listPeekTail list)).prio then
    s.addHead (s.nodes.listPeekTail list) task
  else (Loop.within (s.putTurn list task) turns (s.nodes list).next).bind id

section Find

variable (p : NodePtr → Prop) [DecidablePred p] (list : NodePtr)

/-- A turn of `list_for_every_entry`, that looks for a task. -/
def findTurn (t : NodePtr) : NodePtr ⊕ Option NodePtr :=
  if t ≠ list then if p t then .inr (some t) else .inl (s.nodes t).next else .inr none

/-- `task_find`, and `task_find_child_of`, that may find nothing. -/
def taskFind : Option (Option NodePtr) := Loop.within (s.findTurn p list) turns (s.nodes list).next

/-- A turn of `list_for_every_entry_safe`, that looks for a task, with `t` and `tmp`. -/
def findTurnSafe (t : NodePtr × NodePtr) : (NodePtr × NodePtr) ⊕ Option NodePtr :=
  if t.1 ≠ list then if p t.1 then .inr (some t.1) else .inl (t.2, (s.nodes t.2).next) else .inr none

/-- The loop over `waiters` of `scheduler_exit`, up to its break. -/
def findSafe : Option (Option NodePtr) :=
  Loop.within (s.findTurnSafe p list) turns ((s.nodes list).next, (s.nodes (s.nodes list).next).next)

end Find

/-! ## Operations -/

/-- `prev` is queued to the ready list if it is still running. -/
def requeue (prev : NodePtr) : Option NodeSched :=
  if (s.tasks prev).state = .running then (s.setState prev .ready).taskPut s.heads.ready prev else some s

/-- `prev` stops, and `next` runs. -/
def switch (prev next : NodePtr) : Option NodeSched :=
  (s.delete next).bind fun s₁ =>
    -- the state of `next` is written at the end
    if next ∈ s.live then
      (({ s₁ with current := some next } : NodeSched).requeue prev).map (·.setState next .running)
    else none

/-- `schedule`. -/
def schedule : Option NodeSched :=
  match s.current with
  | none => some s
  | some prev =>
    if s.nodes.listIsEmpty s.heads.ready then some s else s.switch prev (s.nodes s.heads.ready).next

/-- The fields that `scheduler_queue_new` writes, and the counter. -/
def initTask (cur t : NodePtr) (prio : ℤ) : NodeSched :=
  ({ s with nextPid := s.nextPid + 1 } : NodeSched).modify t fun task => { task with
    pid := s.nextPid, parent := (s.tasks cur).pid, prio := prio, state := .ready }

/-- `scheduler_queue_new`. -/
def queueNew (t : NodePtr) (prio : ℤ) : Option (NodeSched × Pid) :=
  s.current.bind fun cur =>
    ((s.initTask cur t prio).taskPut s.heads.ready t).map fun s' => (s', (s'.tasks t).pid)

/-- `scheduler_wake_up`. -/
def wakeUp (t : NodePtr) : Option NodeSched :=
  if t ∈ s.live then (s.setState t .ready).taskPut s.heads.ready t else none

/-- The waiter `t` waits for the death of `cur`. -/
def WaitsFor (cur t : NodePtr) : Prop :=
  0 < (s.tasks t).waitState ∧ (s.tasks cur).pid = (s.tasks t).waitState ∨
    (s.tasks t).waitState = -1 ∧ (s.tasks t).pid = (s.tasks cur).parent

instance (cur : NodePtr) : DecidablePred (s.WaitsFor cur) := fun _ => inferInstanceAs (Decidable (_ ∨ _))

/-- The waiter that `scheduler_exit` finds is woken up. -/
def wakeWaiter (cur : NodePtr) : Option NodeSched :=
  (s.findSafe (s.WaitsFor cur) s.heads.waiters).bind fun
    | none => some s
    -- the loop ends there: one waiter is woken up
    | some t => (s.delete t).bind (·.wakeUp t)

/-- `scheduler_exit`. -/
def exit (status : Int16) : Option NodeSched :=
  match s.current with
  | none => some s
  | some cur =>
    -- the main task does not exit
    if (s.tasks cur).pid = 0 then some s
    else
      ((s.modify cur fun task => { task with state := .zombie, status := status }).addTail s.heads.zombies cur).bind
        fun s₁ => (s₁.wakeWaiter cur).bind schedule

/-- `scheduler_sleep_on(&waiters, &pid)`, of the current task. -/
def sleepOn (cur : NodePtr) (pid : Pid) : Option NodeSched :=
  ((s.modify cur fun task => { task with state := .waiting, waitState := pid }).addTail s.heads.waiters cur).bind
    schedule

/-- The dead task that `scheduler_wait(pid)` finds when `cur` calls it. -/
def findDead (cur : NodePtr) (pid : Pid) : Option (Option NodePtr) :=
  if pid = -1 then s.taskFind (fun t => (s.tasks t).parent = (s.tasks cur).pid) s.heads.zombies
  else s.taskFind (fun t => (s.tasks t).pid = pid) s.heads.zombies

/-- The call that `t` is inside of. -/
def setPending (t : NodePtr) (call : Option (Pid × Int16)) : NodeSched :=
  { s with pending := Function.update s.pending t call }

/-- `free(t)`. -/
def free (t : NodePtr) : Option NodeSched :=
  if t ∈ s.live then some { s with live := s.live.erase t } else none

/-- A turn of the loop of `scheduler_wait(pid, &wstatus, options)` by `cur`. -/
def waitTurn (cur : NodePtr) (pid : Pid) (options : Int16) : Option NodeSched :=
  if pid < -1 then some (s.setPending cur none)
  else (s.findDead cur pid).bind fun
    -- the structure is freed, and its node stays on `zombies`
    | some t => (s.setPending cur none).free t
    | none =>
      if noHang options then some (s.setPending cur none)
      else (s.sleepOn cur pid).map (·.setPending cur (some (pid, options)))

/-- `scheduler_wait`, up to where the current task sleeps. -/
def wait (pid : Pid) (options : Int16) : Option NodeSched := s.current.bind fun cur => s.waitTurn cur pid options

/-! ## Steps -/

/-- The call that the current task is inside of. -/
def inCall : Option (Pid × Int16) := s.current.bind s.pending

/-- The steps that happen: inside of a call, a task can only be interrupted or take another turn; the idle task only
executes `hlt`; and `calloc` returns memory that is not in use. -/
def Admits : NodeOp → Prop
  | .schedule => True
  | .queueNew t _ => s.inCall = none ∧ s.current ≠ some s.idle ∧ t ≠ 0 ∧ ¬ s.Valid t
  | .exit _ => s.inCall = none ∧ s.current ≠ some s.idle
  | .wait _ _ => s.inCall = none ∧ s.current ≠ some s.idle
  | .resume => s.inCall ≠ none ∧ s.current ≠ some s.idle
  | .overwrite t _ _ => ¬ s.Valid t

instance : DecidablePred s.Admits
  | .schedule => inferInstanceAs (Decidable True)
  | .queueNew _ _ => inferInstanceAs (Decidable (_ = none ∧ _ ∧ _ ∧ _))
  | .exit _ => inferInstanceAs (Decidable (_ = none ∧ _))
  | .wait _ _ => inferInstanceAs (Decidable (_ = none ∧ _))
  | .resume => inferInstanceAs (Decidable (_ ≠ none ∧ _))
  | .overwrite _ _ _ => inferInstanceAs (Decidable (¬ _))

/-- `calloc(1, sizeof(struct task))` returns `t`. -/
def calloc (t : NodePtr) : NodeSched := { s with
  nodes := Function.update s.nodes t ⟨0, 0⟩
  tasks := Function.update s.tasks t
    { state := .ready, pid := 0, parent := 0, prio := 0, status := 0, waitState := 0 }
  live := t :: s.live }

/-- The step takes effect. -/
def exec : NodeOp → Option NodeSched
  | .schedule => s.schedule
  | .queueNew t prio => ((s.calloc t).queueNew t prio).map Prod.fst
  | .exit status => s.exit status
  | .wait pid options => s.wait pid options
  | .resume => s.inCall.bind fun (pid, options) => s.wait pid options
  | .overwrite t node task => some { s with
      nodes := Function.update s.nodes t node
      tasks := Function.update s.tasks t task }

/-- One step. The structure of the current task is in use: it was not freed. -/
def step (op : NodeOp) : Option NodeSched :=
  if (∀ cur ∈ s.current, cur ∈ s.live) ∧ s.Admits op then s.exec op else none

/-- The main task, running: `scheduler_initialize`. The lists are empty. -/
def schedulerInitialize (heads : Heads) (nodes : Nodes) (tasks : NodePtr → Task) (main idle : NodePtr) : NodeSched where
  heads := heads
  nodes :=
    (((nodes.listInitialize heads.ready).listInitialize heads.zombies).listInitialize heads.waiters).listInitialize main
  tasks := Function.update tasks main
    { state := .running, pid := 0, parent := -1, prio := 0, status := 0, waitState := 0 }
  current := some main
  nextPid := 0 + 1
  idle := idle
  live := [main]
  pending := fun _ => none

/-- The scheduler after `scheduler_initialize` and `kthread_initialize`. -/
def boot (heads : Heads) (nodes : Nodes) (tasks : NodePtr → Task) (main idle : NodePtr) : Option NodeSched :=
  (((schedulerInitialize heads nodes tasks main idle).calloc idle).queueNew idle (-32767)).map Prod.fst

variable {s} {s' : NodeSched} {cur t prev list task : NodePtr} {pid : Pid} {options : Int16}

/-! ## The functions on nodes -/

theorem addTail_eq (h : s.addTail list task = some s') :
    s' = { s with nodes := s.nodes.listAddTail list task } := by
  rw [addTail] at h
  split_ifs at h
  exact (Option.some.inj h).symm

theorem addHead_eq (h : s.addHead list task = some s') :
    s' = { s with nodes := s.nodes.listAddHead list task } := by
  rw [NodeSched.addHead] at h
  split_ifs at h
  exact (Option.some.inj h).symm

theorem delete_eq (h : s.delete t = some s') : s' = { s with nodes := s.nodes.listDelete t } := by
  rw [delete] at h
  split_ifs at h
  exact (Option.some.inj h).symm

/-- The loop of `task_put` is the one of the ready list in memory. -/
theorem returns_putTurn {fuel : ℕ} (h : Loop.within (s.putTurn list task) fuel t = some (some s')) :
    Loop.Returns (s.nodes.taskPutTurn (fun t => (s.tasks t).prio) list task) t (some s'.nodes) := by
  induction fuel generalizing t with
  | zero => cases h
  | succ fuel ih =>
    rw [Loop.within, putTurn] at h
    split_ifs at h with hne hlow
    · refine (Loop.returns_of_inr ?_).mpr rfl
      rw [Nodes.taskPutTurn, if_pos hne, if_pos hlow, addTail_eq (Option.some.inj h)]
    · refine (Loop.returns_of_inl ?_).mpr (ih h)
      rw [Nodes.taskPutTurn, if_pos hne, if_neg hlow]
    · cases h

/-- `task_put` is the one of the ready list in memory. -/
theorem taskPut_spec (h : s.taskPut list task = some s') :
    s.nodes.TaskPut (fun t => (s.tasks t).prio) list task (some s'.nodes) := by
  rw [taskPut] at h
  rw [Nodes.TaskPut]
  split_ifs at h ⊢ with hempty htail
  · rw [addTail_eq h]
  · rw [addHead_eq h]
  · obtain ⟨r, hwithin, hr⟩ := Option.bind_eq_some_iff.mp h
    obtain rfl : r = some s' := hr
    exact returns_putTurn hwithin

/-! ## Identifiers -/

/-- The identifiers, the counter and the allocated structures are the same. -/
structure Same (s s' : NodeSched) : Prop where
  pid : ∀ u, (s'.tasks u).pid = (s.tasks u).pid
  nextPid : s'.nextPid = s.nextPid
  live : s'.live = s.live

theorem Same.refl (s : NodeSched) : Same s s := ⟨fun _ => rfl, rfl, rfl⟩

theorem Same.trans {s'' : NodeSched} (h : Same s s') (h' : Same s' s'') : Same s s'' :=
  ⟨fun u => (h'.pid u).trans (h.pid u), h'.nextPid.trans h.nextPid, h'.live.trans h.live⟩

theorem same_addTail (h : s.addTail list task = some s') : Same s s' := addTail_eq h ▸ ⟨fun _ => rfl, rfl, rfl⟩

theorem same_addHead (h : s.addHead list task = some s') : Same s s' := addHead_eq h ▸ ⟨fun _ => rfl, rfl, rfl⟩

theorem same_delete (h : s.delete t = some s') : Same s s' := delete_eq h ▸ ⟨fun _ => rfl, rfl, rfl⟩

theorem same_modify {f : Task → Task} (hf : ∀ x, (f x).pid = x.pid) : Same s (s.modify t f) := by
  refine ⟨fun u => ?_, rfl, rfl⟩
  by_cases hu : u = t
  · subst hu
    simp [modify, hf]
  · simp [modify, hu]

theorem same_within {fuel : ℕ} (h : Loop.within (s.putTurn list task) fuel t = some (some s')) : Same s s' := by
  induction fuel generalizing t with
  | zero => cases h
  | succ fuel ih =>
    rw [Loop.within, putTurn] at h
    split_ifs at h
    · exact same_addTail (Option.some.inj h)
    · exact ih h
    · cases h

theorem same_taskPut (h : s.taskPut list task = some s') : Same s s' := by
  rw [taskPut] at h
  split_ifs at h
  · exact same_addTail h
  · exact same_addHead h
  · obtain ⟨r, hwithin, hr⟩ := Option.bind_eq_some_iff.mp h
    obtain rfl : r = some s' := hr
    exact same_within hwithin

theorem same_requeue (h : s.requeue prev = some s') : Same s s' := by
  rw [requeue] at h
  split_ifs at h
  · have hset : Same s (s.setState prev .ready) := same_modify fun _ => rfl
    exact hset.trans (same_taskPut h)
  · exact Option.some.inj h ▸ .refl s

theorem same_switch (h : s.switch prev t = some s') : Same s s' := by
  obtain ⟨s₁, hdelete, h⟩ := Option.bind_eq_some_iff.mp h
  split_ifs at h
  obtain ⟨s₂, hput, rfl⟩ := Option.map_eq_some_iff.mp h
  have hcurrent : Same s ({ s₁ with current := some t } : NodeSched) :=
    (same_delete hdelete).trans ⟨fun _ => rfl, rfl, rfl⟩
  have hlast : Same s₂ (s₂.setState t .running) := same_modify fun _ => rfl
  exact (hcurrent.trans (same_requeue hput)).trans hlast

theorem same_schedule (h : s.schedule = some s') : Same s s' := by
  unfold schedule at h
  split at h
  · exact Option.some.inj h ▸ .refl s
  -- without a ready task the current one goes on
  · split_ifs at h
    · exact Option.some.inj h ▸ .refl s
    · exact same_switch h

theorem same_wakeUp (h : s.wakeUp t = some s') : Same s s' := by
  rw [wakeUp] at h
  split_ifs at h
  have hset : Same s (s.setState t .ready) := same_modify fun _ => rfl
  exact hset.trans (same_taskPut h)

theorem same_wakeWaiter (h : s.wakeWaiter cur = some s') : Same s s' := by
  obtain ⟨found, -, h⟩ := Option.bind_eq_some_iff.mp h
  cases found with
  | none => exact Option.some.inj h ▸ .refl s
  | some t =>
    obtain ⟨s₁, hdelete, hwake⟩ := Option.bind_eq_some_iff.mp h
    exact (same_delete hdelete).trans (same_wakeUp hwake)

theorem same_exit {status : Int16} (h : s.exit status = some s') : Same s s' := by
  unfold exit at h
  split at h
  · exact Option.some.inj h ▸ .refl s
  · rename_i cur _
    split_ifs at h
    · exact Option.some.inj h ▸ .refl s
    -- the four parts of an exit, each of which keeps the identifiers
    · obtain ⟨s₁, hadd, h⟩ := Option.bind_eq_some_iff.mp h
      obtain ⟨s₂, hwake, hsched⟩ := Option.bind_eq_some_iff.mp h
      have hmark : Same s (s.modify cur fun task => { task with state := .zombie, status := status }) :=
        same_modify fun _ => rfl
      exact ((hmark.trans (same_addTail hadd)).trans (same_wakeWaiter hwake)).trans (same_schedule hsched)

theorem same_sleepOn (h : s.sleepOn cur pid = some s') : Same s s' := by
  obtain ⟨s₁, hadd, hsched⟩ := Option.bind_eq_some_iff.mp h
  have hmark : Same s (s.modify cur fun task => { task with state := .waiting, waitState := pid }) :=
    same_modify fun _ => rfl
  exact (hmark.trans (same_addTail hadd)).trans (same_schedule hsched)

/-- A turn of `scheduler_wait` keeps the identifiers and the counter, and may free a structure. -/
theorem wait_frame (h : s.wait pid options = some s') :
    (∀ u, (s'.tasks u).pid = (s.tasks u).pid) ∧ s'.nextPid = s.nextPid ∧ s'.live ⊆ s.live := by
  obtain ⟨cur, -, h⟩ := Option.bind_eq_some_iff.mp h
  by_cases hlow : pid < -1
  · rw [waitTurn, if_pos hlow] at h
    rw [← Option.some.inj h]
    exact ⟨fun _ => rfl, rfl, List.Subset.refl _⟩
  · rw [waitTurn, if_neg hlow] at h
    obtain ⟨found, -, h⟩ := Option.bind_eq_some_iff.mp h
    cases found with
    | some t =>
      -- a dead task is found: its structure is the one that is freed
      change (s.setPending cur none).free t = some s' at h
      rw [NodeSched.free] at h
      split_ifs at h
      rw [← Option.some.inj h]
      exact ⟨fun _ => rfl, rfl, List.erase_subset⟩
    | none =>
      dsimp only at h
      split_ifs at h
      · rw [← Option.some.inj h]
        exact ⟨fun _ => rfl, rfl, List.Subset.refl _⟩
      · obtain ⟨s₁, hsleep, rfl⟩ := Option.map_eq_some_iff.mp h
        have hsame := same_sleepOn hsleep
        exact ⟨hsame.pid, hsame.nextPid, hsame.live ▸ List.Subset.refl _⟩

/-- A new task takes the counter's value, and moves it. -/
theorem queueNew_spec {prio : ℤ} (h : s.queueNew t prio = some (s', pid)) :
    pid = s.nextPid ∧ (s'.tasks t).pid = s.nextPid ∧ s'.nextPid = s.nextPid + 1 ∧ s'.live = s.live ∧
      ∀ u ≠ t, (s'.tasks u).pid = (s.tasks u).pid := by
  obtain ⟨cur, -, h⟩ := Option.bind_eq_some_iff.mp h
  obtain ⟨s₁, hput, h⟩ := Option.map_eq_some_iff.mp h
  obtain ⟨rfl, rfl⟩ := Prod.mk.inj h
  have hsame := same_taskPut hput
  have hpid : (s₁.tasks t).pid = s.nextPid := by
    rw [hsame.pid]
    simp [initTask, modify]
  refine ⟨hpid, hpid, hsame.nextPid, hsame.live, fun u hu => ?_⟩
  rw [hsame.pid]
  simp [initTask, modify, hu]

/-! ## Calls -/

/-- A loop that ends in its first turn. -/
theorem within_turns {S R : Type} {turn : S → S ⊕ R} {x : S} {r : R} (h : turn x = .inr r) :
    Loop.within turn turns x = some r := by
  show Loop.within turn (2 ^ 16 + 1) x = some r
  rw [Loop.within, h]

/-- `task_put` before the only task of a list. -/
theorem taskPut_before (hlist : s.nodes list = ⟨t, t⟩) (hne : t ≠ list)
    (hprio : (s.tasks t).prio < (s.tasks task).prio) : s.taskPut list task = s.addTail t task := by
  have hempty : ¬ s.nodes.listIsEmpty list = true := by simp [Nodes.listIsEmpty, hlist, hne]
  have hpeek : s.nodes.listPeekTail list = t := by simp [Nodes.listPeekTail, hlist, hne]
  have hturn : s.putTurn list task t = .inr (s.addTail t task) := by rw [putTurn, if_pos hne, if_pos hprio]
  rw [NodeSched.taskPut, if_neg hempty, hpeek, if_neg fun h => not_lt.mpr h.2 hprio, hlist, within_turns hturn]
  rfl

/-- A created task. -/
theorem exec_queueNew {prio : ℤ} (hcur : s.current = some cur)
    (hput : ((s.calloc t).initTask cur t prio).taskPut s.heads.ready t = some s') :
    s.exec (.queueNew t prio) = some s' := by
  have hcur' : (s.calloc t).current = some cur := hcur
  rw [exec, NodeSched.queueNew, hcur', Option.bind_some]
  change ((((s.calloc t).initTask cur t prio).taskPut s.heads.ready t).map _).map _ = _
  rw [hput]
  rfl

/-- A switch to the first ready task. -/
theorem schedule_of_ready (hcur : s.current = some prev) (hnext : (s.nodes s.heads.ready).next = t)
    (hne : t ≠ s.heads.ready) : s.schedule = s.switch prev t := by
  have hempty : ¬ s.nodes.listIsEmpty s.heads.ready = true := by simp [Nodes.listIsEmpty, hnext, hne]
  simp only [NodeSched.schedule, hcur, if_neg hempty, hnext]

/-- No task waits. -/
theorem wakeWaiter_of_empty (hnext : (s.nodes s.heads.waiters).next = s.heads.waiters) :
    s.wakeWaiter cur = some s := by
  have hturn : s.findTurnSafe (s.WaitsFor cur) s.heads.waiters (s.heads.waiters, s.heads.waiters) = .inr none := by
    simp [findTurnSafe]
  rw [wakeWaiter, findSafe, hnext, hnext, within_turns hturn, Option.bind_some]

end NodeSched

end I80k.Kernel

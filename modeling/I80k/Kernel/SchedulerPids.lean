import I80k.Kernel.SchedulerNodes
import I80k.Kernel.Word

/-!
# Process identifiers

`scheduler_queue_new` takes the identifier of a task from the counter `next_pid`, an `int` of 16 bits that
nothing sets back. The main and the idle task take 0 and 1, so the first 32766 tasks that are created later
get the positive numbers up to 32767, each once. The next one gets -32768.

So many tasks never exist together: their structures are freed by `scheduler_wait` and used again. One structure is
enough, for a child that exits and is waited for over and over.

## Main definitions

* `NodeSched.PidOk`: the step creates no task, or gives it a positive identifier that no other task has
* `NodeSched.Counted`: the counter is the number of tasks that were created
* `NodeSched.Resting`: between two children, with one structure for all of them

## Main results

* `NodeSched.Counted.step`: every step counts the tasks that it creates
* `NodeSched.Counted.pidOk_iff`: a new task has a good identifier exactly if fewer than `2 ^ 15` came before it
* `pids_unique_iff`: identifiers are good along exactly the runs that create at most 32766 tasks
-/

namespace I80k.Kernel

open StepSystem

/-- The step is a call of `scheduler_queue_new`. -/
def NodeOp.creates : NodeOp → Bool
  | .queueNew _ _ => true
  | _ => false

namespace NodeSched

/-- A task that is created gets an identifier greater than 0, and not that of a task that is current, ready,
waiting or dead: of another structure in use. -/
def PidOk (s : NodeSched) : NodeOp → Prop
  | .queueNew t prio => ∀ s' pid, (s.calloc t).queueNew t prio = some (s', pid) →
    0 < pid ∧ ∀ u ∈ s.live, (s.tasks u).pid ≠ pid
  | _ => True

/-- The identifiers of the tasks are values that the counter had, and it has now counted `n` of them. -/
structure Counted (s : NodeSched) (n : ℕ) : Prop where
  next : s.nextPid = Int16.ofNat n
  pids : ∀ u ∈ s.live, ∃ k < n, (s.tasks u).pid = Int16.ofNat k
  two : 2 ≤ n

variable {s s' : NodeSched} {op : NodeOp} {n : ℕ} {t : NodePtr} {prio : ℤ} {pid : Pid}

/-- The tasks and the counter stay, or some tasks are gone. -/
theorem Counted.congr (h : Counted s n) (hpid : ∀ u ∈ s.live, (s'.tasks u).pid = (s.tasks u).pid)
    (hnext : s'.nextPid = s.nextPid) (hlive : s'.live ⊆ s.live) : Counted s' n := by
  refine ⟨hnext.trans h.next, fun u hu => ?_, h.two⟩
  obtain ⟨k, hk, hpk⟩ := h.pids u (hlive hu)
  exact ⟨k, hk, (hpid u (hlive hu)).trans hpk⟩

theorem Counted.same (h : Counted s n) (hsame : Same s s') : Counted s' n :=
  h.congr (fun u _ => hsame.pid u) hsame.nextPid (hsame.live ▸ List.Subset.refl _)

theorem Counted.wait {options : Int16} (h : Counted s n) (hw : s.wait pid options = some s') : Counted s' n :=
  h.congr (fun u _ => (wait_frame hw).1 u) (wait_frame hw).2.1 (wait_frame hw).2.2

theorem Counted.queueNew (h : Counted s n) (hq : (s.calloc t).queueNew t prio = some (s', pid)) :
    Counted s' (n + 1) := by
  obtain ⟨-, hpid, hnext, hlive, hother⟩ := queueNew_spec hq
  have hcounter : (s.calloc t).nextPid = Int16.ofNat n := h.next
  refine ⟨?_, fun u hu => ?_, Nat.le_succ_of_le h.two⟩
  · rw [hnext, hcounter, Int16.ofNat_add]
    rfl
  -- the new task has the value of the counter, and the others keep theirs
  · by_cases hut : u = t
    · subst hut
      exact ⟨n, Nat.lt_succ_self n, hpid.trans hcounter⟩
    · have hold : u ∈ s.live := by
        rw [hlive] at hu
        exact (List.mem_cons.mp hu).resolve_left hut
      obtain ⟨k, hk, hpk⟩ := h.pids u hold
      refine ⟨k, hk.trans (Nat.lt_succ_self n), ?_⟩
      rw [hother u hut, ← hpk]
      simp [calloc, hut]

theorem exec_of_step (h : s.step op = some s') : s.Admits op ∧ s.exec op = some s' := by
  rw [NodeSched.step] at h
  split_ifs at h with ha
  exact ⟨ha.2, h⟩

/-- An admitted step that creates a task calls `scheduler_queue_new`. -/
theorem step_queueNew (h : s.step (.queueNew t prio) = some s') :
    ∃ pid, (s.calloc t).queueNew t prio = some (s', pid) := by
  obtain ⟨⟨s₁, pid⟩, hs, rfl⟩ := Option.map_eq_some_iff.mp (exec_of_step h).2
  exact ⟨pid, hs⟩

/-- **Every step counts the tasks** that it creates. -/
theorem Counted.step (h : Counted s n) (hstep : s.step op = some s') :
    Counted s' (n + if op.creates then 1 else 0) := by
  obtain ⟨hadmits, hexec⟩ := exec_of_step hstep
  cases op with
  | schedule => exact h.same (same_schedule hexec)
  | queueNew t prio =>
    obtain ⟨pid, hq⟩ := step_queueNew hstep
    exact h.queueNew hq
  | exit status => exact h.same (same_exit hexec)
  | wait pid options => exact h.wait hexec
  | resume =>
    obtain ⟨⟨pid, options⟩, -, hw⟩ := Option.bind_eq_some_iff.mp hexec
    exact h.wait hw
  | overwrite t node task =>
    -- the memory is not that of a task
    have hfree : t ∉ s.live := fun ht => hadmits (.inr ht)
    refine h.congr (fun u hu => ?_) ?_ ?_
    · have hne : u ≠ t := fun he => hfree (he ▸ hu)
      rw [← Option.some.inj hexec]
      simp [hne]
    · rw [← Option.some.inj hexec]
    · rw [← Option.some.inj hexec]
      exact List.Subset.refl _

/-- **The exact bound.** A new task has a good identifier exactly if fewer than `2 ^ 15` tasks were created
before it. -/
theorem Counted.pidOk_iff (h : Counted s n) (hq : (s.calloc t).queueNew t prio = some (s', pid))
    (hle : n ≤ 2 ^ 15) : s.PidOk (.queueNew t prio) ↔ n < 2 ^ 15 := by
  have hpid : ∀ {s' pid}, (s.calloc t).queueNew t prio = some (s', pid) → pid = Int16.ofNat n :=
    fun hq => (queueNew_spec hq).1.trans h.next
  constructor
  · intro hok
    by_contra hge
    -- the counter has wrapped around to -32768
    obtain rfl : n = 2 ^ 15 := by omega
    have hpos := (hok s' pid hq).1
    rw [hpid hq] at hpos
    exact absurd hpos (by decide)
  · intro hlt s' pid hq
    obtain rfl := hpid hq
    have hnext := int16_toInt_of_lt hlt
    refine ⟨?_, fun u hu heq => ?_⟩
    · have htwo := h.two
      rw [Int16.lt_iff_toInt_lt, hnext]
      simp
      omega
    · -- the identifier of another task is an earlier value of the counter
      obtain ⟨k, hk, hpk⟩ := h.pids u hu
      have hkint : (n : ℤ) = k := by rw [← hnext, ← heq, hpk, int16_toInt_of_lt (hk.trans hlt)]
      omega

/-- Along a run: identifiers are good as long as the counter has not reached `2 ^ 15`. -/
theorem Counted.steps_pidOk_iff {ops : List NodeOp} (h : Counted s n) (hle : n ≤ 2 ^ 15)
    (hrun : run NodeSched.step s ops = some s') :
    Steps NodeSched.step PidOk s ops ↔ n + ops.countP NodeOp.creates ≤ 2 ^ 15 := by
  induction ops generalizing s n with
  | nil => simpa [Steps] using hle
  | cons op ops ih =>
    obtain ⟨s₁, hstep, hrun₁⟩ := exists_of_run_cons _ hrun
    have h₁ := h.step hstep
    have hrest : (∀ s', s.step op = some s' → Steps NodeSched.step PidOk s' ops) ↔
        Steps NodeSched.step PidOk s₁ ops := by
      constructor
      · exact fun hall => hall s₁ hstep
      · intro hone s' hs'
        rwa [Option.some.inj (hs'.symm.trans hstep)]
    rw [Steps, hrest, List.countP_cons]
    cases hop : op.creates with
    | false =>
      -- the step is not about identifiers
      have hok : s.PidOk op := by
        cases op with
        | queueNew => cases hop
        | _ => exact trivial
      rw [hop] at h₁
      simp only [hok, true_and]
      simpa using ih h₁ hle hrun₁
    | true =>
      cases op with
      | queueNew t prio =>
        obtain ⟨pid, hq⟩ := step_queueNew hstep
        rw [h.pidOk_iff hq hle]
        rw [hop, if_pos rfl] at h₁
        by_cases hlt : n < 2 ^ 15
        · rw [ih h₁ hlt hrun₁]
          simp only [hlt, true_and, if_true]
          omega
        · simp only [hlt, false_and, if_true, false_iff]
          omega
      | _ => cases hop

/-- The main and the idle task. -/
theorem counted_boot {heads : Heads} {nodes : Nodes} {tasks : NodePtr → Task} {main idle : NodePtr}
    (hboot : boot heads nodes tasks main idle = some s) : Counted s 2 := by
  obtain ⟨⟨s₁, pid⟩, hq, rfl⟩ := Option.map_eq_some_iff.mp hboot
  obtain ⟨-, hpid, hnext, hlive, hother⟩ := queueNew_spec hq
  refine ⟨hnext, fun u hu => ?_, le_rfl⟩
  by_cases hidle : u = idle
  · subst hidle
    exact ⟨1, Nat.one_lt_two, hpid⟩
  · obtain rfl : u = main := by
      rw [hlive] at hu
      exact List.mem_singleton.mp ((List.mem_cons.mp hu).resolve_left hidle)
    refine ⟨0, Nat.zero_lt_two, ?_⟩
    rw [hother u hidle]
    simp [calloc, schedulerInitialize, hidle]

/-! ## One structure for all children -/

/-- A run with the heads at 0x100, 0x104 and 0x108, the main task at 0x1000, the idle task at 0x1040, and each child at
0x1080. No other task waits, and `zombies` is as it was initialised or as a child that was freed has left it. -/
structure Stage (s : NodeSched) (current : NodePtr) (main : TaskState) (live : List NodePtr) : Prop where
  heads : s.heads = ⟨0x100#16, 0x104#16, 0x108#16⟩
  zombies : s.nodes 0x104#16 = ⟨0x104#16, 0x104#16⟩ ∨ s.nodes 0x104#16 = ⟨0x1080#16, 0x1080#16⟩
  waiters : s.nodes 0x108#16 = ⟨0x108#16, 0x108#16⟩
  current : s.current = some current
  main : s.tasks 0x1000#16 = ⟨main, 0, -1, 0, 0, 0⟩
  idlePrio : (s.tasks 0x1040#16).prio = -32767
  idle : s.idle = 0x1040#16
  live : s.live = live
  calls : s.pending 0x1000#16 = none ∧ s.pending 0x1080#16 = none

/-- The main task runs, and the idle task is ready: there is no child. -/
structure Resting (s : NodeSched) : Prop extends Stage s 0x1000#16 .running [0x1040#16, 0x1000#16] where
  ready : s.nodes 0x100#16 = ⟨0x1040#16, 0x1040#16⟩
  idleNode : s.nodes 0x1040#16 = ⟨0x100#16, 0x100#16⟩

/-- The main task has started a child. -/
structure Started (s : NodeSched) (pid : Pid) : Prop
    extends Stage s 0x1000#16 .running [0x1080#16, 0x1040#16, 0x1000#16] where
  ready : s.nodes 0x100#16 = ⟨0x1040#16, 0x1080#16⟩
  childNode : s.nodes 0x1080#16 = ⟨0x100#16, 0x1040#16⟩
  idleNode : s.nodes 0x1040#16 = ⟨0x1080#16, 0x100#16⟩
  child : s.tasks 0x1080#16 = ⟨.ready, pid, 0, 5, 0, 0⟩

/-- The child runs, and the main task is ready. -/
structure Running (s : NodeSched) (pid : Pid) : Prop
    extends Stage s 0x1080#16 .ready [0x1080#16, 0x1040#16, 0x1000#16] where
  ready : s.nodes 0x100#16 = ⟨0x1040#16, 0x1000#16⟩
  mainNode : s.nodes 0x1000#16 = ⟨0x100#16, 0x1040#16⟩
  idleNode : s.nodes 0x1040#16 = ⟨0x1000#16, 0x100#16⟩
  child : s.tasks 0x1080#16 = ⟨.running, pid, 0, 5, 0, 0⟩

/-- The child is dead, and the main task runs again. -/
structure Exited (s : NodeSched) : Prop
    extends Stage s 0x1000#16 .running [0x1080#16, 0x1040#16, 0x1000#16] where
  ready : s.nodes 0x100#16 = ⟨0x1040#16, 0x1040#16⟩
  idleNode : s.nodes 0x1040#16 = ⟨0x100#16, 0x100#16⟩
  dead : s.nodes 0x104#16 = ⟨0x1080#16, 0x1080#16⟩
  child : (s.tasks 0x1080#16).parent = 0

theorem Resting.queueNew (h : Resting s) :
    ∃ s', s.step (.queueNew 0x1080#16 5) = some s' ∧ Started s' s.nextPid ∧ s'.nextPid = s.nextPid + 1 := by
  obtain ⟨⟨heads, zombies, waiters, current, main, prio, idle, live, calls⟩, ready, idleNode⟩ := h
  let s₁ := (s.calloc 0x1080#16).initTask 0x1000#16 0x1080#16 5
  have hput : s₁.taskPut s.heads.ready 0x1080#16 =
      some { s₁ with nodes := s₁.nodes.listAddTail 0x1040#16 0x1080#16 } := by
    -- in front of the idle task, which has the lowest priority
    rw [heads, taskPut_before (t := 0x1040#16)]
    · simp [s₁, addTail, Valid, IsHead, initTask, calloc, modify, *]
    · simp [s₁, initTask, calloc, modify, *]
    · simp
    · simp [s₁, initTask, calloc, modify, *]
  refine ⟨{ s₁ with nodes := s₁.nodes.listAddTail 0x1040#16 0x1080#16 }, ?_, ?_, rfl⟩
  · have hadmits : (∀ cur ∈ s.current, cur ∈ s.live) ∧ s.Admits (.queueNew 0x1080#16 5) := by
      simp [Admits, inCall, Valid, IsHead, *]
    rw [NodeSched.step, if_pos hadmits, exec_queueNew current hput]
  · constructor
    · constructor
      all_goals simp [*, s₁, initTask, calloc, modify, Nodes.listAddTail, Nodes.setPrev, Nodes.setNext]
    all_goals simp [*, s₁, initTask, calloc, modify, Nodes.listAddTail, Nodes.setPrev, Nodes.setNext]

theorem Started.schedule (h : Started s pid) :
    ∃ s', s.step .schedule = some s' ∧ Running s' pid ∧ s'.nextPid = s.nextPid := by
  obtain ⟨⟨heads, zombies, waiters, current, main, prio, idle, live, calls⟩, ready, childNode, idleNode, child⟩ := h
  let s₁ : NodeSched := { s with nodes := s.nodes.listDelete 0x1080#16 }
  let s₂ : NodeSched := ({ s₁ with current := some 0x1080#16 } : NodeSched).setState 0x1000#16 .ready
  have hdelete : s.delete 0x1080#16 = some s₁ := by simp [delete, Valid, IsHead, s₁, *]
  have hput : s₂.taskPut s.heads.ready 0x1000#16 =
      some { s₂ with nodes := s₂.nodes.listAddTail 0x1040#16 0x1000#16 } := by
    rw [heads, taskPut_before (t := 0x1040#16)]
    all_goals simp [s₂, s₁, addTail, Valid, IsHead, setState, modify, Nodes.listDelete, Nodes.setPrev, Nodes.setNext, *]
  refine ⟨({ s₂ with nodes := s₂.nodes.listAddTail 0x1040#16 0x1000#16 } : NodeSched).setState 0x1080#16 .running,
    ?_, ?_, rfl⟩
  · have hadmits : (∀ cur ∈ s.current, cur ∈ s.live) ∧ s.Admits .schedule := by simp [Admits, *]
    have hrequeue : ({ s₁ with current := some 0x1080#16 } : NodeSched).requeue 0x1000#16 =
        s₂.taskPut s.heads.ready 0x1000#16 := by
      rw [requeue, if_pos (by simp [s₁, main])]
    have hschedule : s.schedule = s.switch 0x1000#16 0x1080#16 :=
      schedule_of_ready current (by simp [*]) (by simp [*])
    rw [NodeSched.step, if_pos hadmits, exec, hschedule, switch, hdelete, Option.bind_some, if_pos (by simp [*]),
      hrequeue, hput]
    rfl
  · constructor
    · constructor
      all_goals simp [*, s₂, s₁, setState, modify, Nodes.listDelete, Nodes.listAddTail, Nodes.setPrev, Nodes.setNext]
    all_goals simp [*, s₂, s₁, setState, modify, Nodes.listDelete, Nodes.listAddTail, Nodes.setPrev, Nodes.setNext]

theorem Running.exit (h : Running s pid) (hpid : pid ≠ 0) (status : Int16) :
    ∃ s', s.step (.exit status) = some s' ∧ Exited s' ∧ s'.nextPid = s.nextPid := by
  obtain ⟨⟨heads, zombies, waiters, current, main, prio, idle, live, calls⟩, ready, mainNode, idleNode, child⟩ := h
  let s₁ := s.modify 0x1080#16 fun task => { task with state := .zombie, status := status }
  let s₂ : NodeSched := { s₁ with nodes := s₁.nodes.listAddTail 0x104#16 0x1080#16 }
  let s₃ : NodeSched := { s₂ with nodes := s₂.nodes.listDelete 0x1000#16 }
  have hadd : s₁.addTail s.heads.zombies 0x1080#16 = some s₂ := by
    rcases zombies with zombies | zombies <;> simp [s₁, s₂, addTail, Valid, IsHead, modify, *]
  -- `zombies` may point to the structure already: it does so now in any case, and no other node is written to
  obtain ⟨hdead, hother⟩ : s₂.nodes 0x104#16 = ⟨0x1080#16, 0x1080#16⟩ ∧
      ∀ x, x ≠ 0x104#16 → x ≠ 0x1080#16 → s₂.nodes x = s.nodes x := by
    rcases zombies with zombies | zombies
    all_goals
      refine ⟨by simp [s₂, s₁, modify, Nodes.listAddTail, Nodes.setPrev, Nodes.setNext, *], fun x hx hx' => ?_⟩
      simp [s₂, s₁, modify, Nodes.listAddTail, Nodes.setPrev, Nodes.setNext, *]
  have hreadyNode := (hother 0x100#16 (by decide) (by decide)).trans ready
  have hwaitersNode := (hother 0x108#16 (by decide) (by decide)).trans waiters
  have hmainNode := (hother 0x1000#16 (by decide) (by decide)).trans mainNode
  have hidleNode := (hother 0x1040#16 (by decide) (by decide)).trans idleNode
  -- what is left is a switch back to the main task
  have hcur : s₂.current = some 0x1080#16 := current
  have hheads : s₂.heads = ⟨0x100#16, 0x104#16, 0x108#16⟩ := heads
  have hlive : s₂.live = [0x1080#16, 0x1040#16, 0x1000#16] := live
  have hwake : s₂.wakeWaiter 0x1080#16 = some s₂ := wakeWaiter_of_empty (by simp [hheads, hwaitersNode])
  have hdelete : s₂.delete 0x1000#16 = some s₃ := by
    simp [delete, Valid, IsHead, s₃, hheads, hlive, hmainNode]
  have hrequeue : ({ s₃ with current := some 0x1000#16 } : NodeSched).requeue 0x1080#16 =
      some { s₃ with current := some 0x1000#16 } := by
    rw [requeue, if_neg (by simp [s₃, s₂, s₁, modify])]
  have hschedule : s₂.schedule =
      some (({ s₃ with current := some 0x1000#16 } : NodeSched).setState 0x1000#16 .running) := by
    have hnext : (s₂.nodes s₂.heads.ready).next = 0x1000#16 := by simp [hheads, hreadyNode]
    rw [schedule_of_ready hcur hnext (by simp [hheads]), switch, hdelete, Option.bind_some,
      if_pos (by simp [hlive]), hrequeue, Option.map_some]
  refine ⟨({ s₃ with current := some 0x1000#16 } : NodeSched).setState 0x1000#16 .running, ?_, ?_, rfl⟩
  · have hadmits : (∀ cur ∈ s.current, cur ∈ s.live) ∧ s.Admits (.exit status) := by simp [Admits, inCall, *]
    rw [NodeSched.step, if_pos hadmits, exec]
    simp only [NodeSched.exit, current, child, if_neg hpid]
    rw [hadd, Option.bind_some, hwake, Option.bind_some, hschedule]
  · have htasks : s₂.tasks = s₁.tasks := rfl
    have hsame : s₂.idle = s.idle ∧ s₂.pending = s.pending := ⟨rfl, rfl⟩
    constructor
    · constructor
      all_goals simp [*, s₃, s₁, setState, modify, Nodes.listDelete, Nodes.setPrev, Nodes.setNext]
    all_goals simp [*, s₃, s₁, setState, modify, Nodes.listDelete, Nodes.setPrev, Nodes.setNext]

theorem Exited.wait (h : Exited s) :
    ∃ s', s.step (.wait (-1) 0) = some s' ∧ Resting s' ∧ s'.nextPid = s.nextPid := by
  obtain ⟨⟨heads, zombies, waiters, current, main, prio, idle, live, calls⟩, ready, idleNode, dead, child⟩ := h
  refine ⟨{ s.setPending 0x1000#16 none with live := s.live.erase 0x1080#16 }, ?_, ?_, rfl⟩
  · have hadmits : (∀ cur ∈ s.current, cur ∈ s.live) ∧ s.Admits (.wait (-1) 0) := by simp [Admits, inCall, *]
    -- the child is the first task on `zombies`
    have hturn : s.findTurn (fun t => (s.tasks t).parent = (s.tasks 0x1000#16).pid) 0x104#16 0x1080#16 =
        .inr (some 0x1080#16) := by
      simp [findTurn, child, main]
    have hfind : s.findDead 0x1000#16 (-1) = some (some 0x1080#16) := by
      rw [findDead, if_pos rfl, taskFind, heads, dead, within_turns hturn]
    have hfree : (s.setPending 0x1000#16 none).free 0x1080#16 =
        some { s.setPending 0x1000#16 none with live := s.live.erase 0x1080#16 } := by
      simp [NodeSched.free, setPending, live]
    rw [NodeSched.step, if_pos hadmits, exec, NodeSched.wait, current, Option.bind_some, waitTurn, if_neg (by decide),
      hfind, Option.bind_some]
    exact hfree
  · constructor
    · constructor
      all_goals simp [*, setPending]
    all_goals simp [*, setPending]

/-- A child is created, runs, exits and is waited for. -/
def childOps : List NodeOp := [.queueNew 0x1080#16 5, .schedule, .exit 3, .wait (-1) 0]

/-- The structure can be used again for the next child. -/
theorem Resting.child (h : Resting s) (hpid : s.nextPid ≠ 0) :
    ∃ s', run NodeSched.step s childOps = some s' ∧ Resting s' ∧ s'.nextPid = s.nextPid + 1 := by
  obtain ⟨s₁, hqueue, hstarted, hcounter⟩ := h.queueNew
  obtain ⟨s₂, hschedule, hrunning, hkeep₂⟩ := hstarted.schedule
  obtain ⟨s₃, hexit, hexited, hkeep₃⟩ := hrunning.exit hpid 3
  obtain ⟨s₄, hwait, hresting, hkeep₄⟩ := hexited.wait
  refine ⟨s₄, ?_, hresting, ?_⟩
  · simp only [childOps, run_cons, hqueue, hschedule, hexit, hwait, Option.bind_some, run_nil]
  · rw [hkeep₄, hkeep₃, hkeep₂, hcounter]

/-- `k` children, one after the other. -/
def children (k : ℕ) : List NodeOp := (List.replicate k childOps).flatten

theorem countP_children (k : ℕ) : (children k).countP NodeOp.creates = k := by
  have hone : childOps.countP NodeOp.creates = 1 := rfl
  simp [children, List.countP_flatten, hone]

/-- As long as the counter does not come back to 0. -/
theorem Resting.children (k : ℕ) {n : ℕ} (h : Resting s) (hnext : s.nextPid = Int16.ofNat n) (hn : 0 < n)
    (hle : n + k ≤ 2 ^ 16) : ∃ s', run NodeSched.step s (children k) = some s' := by
  induction k generalizing s n with
  | zero => exact ⟨s, rfl⟩
  | succ k ih =>
    -- the main task alone has the identifier 0, and it does not exit
    have hpid : s.nextPid ≠ 0 := by
      rw [hnext]
      intro h0
      have := congrArg (fun x : Int16 => x.toBitVec.toNat) h0
      simp at this
      omega
    obtain ⟨s₁, hrun, hresting, hcounter⟩ := h.child hpid
    obtain ⟨s', hs'⟩ := ih (n := n + 1) hresting (by rw [hcounter, hnext, Int16.ofNat_add]; rfl) (by omega) (by omega)
    refine ⟨s', ?_⟩
    rw [NodeSched.children, List.replicate_succ, List.flatten_cons, run_append, hrun, Option.bind_some]
    exact hs'

/-- The heads, the main task and the idle task at the addresses of a stage. -/
def someBoot : Option NodeSched :=
  boot ⟨0x100#16, 0x104#16, 0x108#16⟩ (fun _ => ⟨0, 0⟩) (fun _ => ⟨.ready, 0, 0, 0, 0, 0⟩) 0x1000#16 0x1040#16

theorem resting_boot : ∃ s₀, someBoot = some s₀ ∧ Resting s₀ ∧ s₀.nextPid = Int16.ofNat 2 := by
  refine ⟨_, rfl, ⟨⟨rfl, .inl rfl, rfl, rfl, rfl, rfl, rfl, rfl, rfl, rfl⟩, rfl, rfl⟩, rfl⟩

end NodeSched

/-- **Identifiers are unique and positive, exactly up to the end of the counter.** In every run from the
initialised scheduler, every task that is created gets an identifier greater than 0 that no current, ready,
waiting or dead task has, if and only if the run creates at most 32766 tasks. -/
theorem pids_unique_iff (heads : Heads) (nodes : Nodes) (tasks : NodePtr → Task) (main idle : NodePtr)
    (s₀ s : NodeSched) (hboot : NodeSched.boot heads nodes tasks main idle = some s₀) (ops : List NodeOp)
    (hrun : run NodeSched.step s₀ ops = some s) :
    Steps NodeSched.step NodeSched.PidOk s₀ ops ↔ ops.countP NodeOp.creates ≤ 32766 := by
  rw [(NodeSched.counted_boot hboot).steps_pidOk_iff (by omega) hrun]
  omega

/-- Two children, the second one in the structure of the first one. -/
theorem pids_unique_iff_children :
    ∃ s₀ s, NodeSched.someBoot = some s₀ ∧ run NodeSched.step s₀ (NodeSched.children 2) = some s ∧
      Steps NodeSched.step NodeSched.PidOk s₀ (NodeSched.children 2) := by
  obtain ⟨s₀, hboot, hresting, hnext⟩ := NodeSched.resting_boot
  obtain ⟨s, hrun⟩ := hresting.children 2 hnext (by decide) (by decide)
  refine ⟨s₀, s, hboot, hrun, ?_⟩
  rw [pids_unique_iff _ _ _ _ _ s₀ s hboot _ hrun, NodeSched.countP_children]
  decide

/-- Of 32767 children, one after the other in one structure, the last one gets -32768. -/
theorem not_steps_pidOk_children :
    ∃ s₀ s, NodeSched.someBoot = some s₀ ∧ run NodeSched.step s₀ (NodeSched.children 32767) = some s ∧
      ¬ Steps NodeSched.step NodeSched.PidOk s₀ (NodeSched.children 32767) := by
  obtain ⟨s₀, hboot, hresting, hnext⟩ := NodeSched.resting_boot
  obtain ⟨s, hrun⟩ := hresting.children 32767 hnext (by decide) (by decide)
  refine ⟨s₀, s, hboot, hrun, ?_⟩
  rw [(NodeSched.counted_boot hboot).steps_pidOk_iff (by decide) hrun, NodeSched.countP_children]
  decide

end I80k.Kernel

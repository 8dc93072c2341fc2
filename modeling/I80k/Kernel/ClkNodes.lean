import I80k.Kernel.Clk
import I80k.Kernel.TaskPut

/-!
# The wake-up in memory

`clk_wakeup` goes through `blocked` with `list_for_every_entry_safe`, and a task that has passed its deadline is
deleted from the list and put on the ready list in the same turn: its node does not lead on any more. The macro
takes the next task before, so that the loop comes to every task that was on the list, in its order.

## Main definitions

* `Nodes.WakeupLoop`, `Nodes.ClkWakeup`: the function of `clk.c`, on the nodes in memory
* `InMemory`: the nodes, the ready list and a queue of the scheduler belong together

## Main results

* `InMemory.wake`, `InMemory.loop`: a turn of the loop, and all of them
* `clkWakeup_inMemory`: `Clk.clkWakeup` is what happens in memory
-/

namespace I80k.Kernel

open CircularLinks

namespace Nodes

variable (prio : NodePtr → ℤ) (passed : NodePtr → Prop) (ready list : NodePtr)

/-- The loop of `clk_wakeup`, with `t` and `tmp`: the nodes, and those after it. -/
inductive WakeupLoop : Nodes → NodePtr → NodePtr → Nodes → Prop
  | done {m tmp} : WakeupLoop m list tmp m
  | stay {m t tmp m'} (hne : t ≠ list) (ht : ¬ passed t) (hrest : WakeupLoop m tmp (m tmp).next m') :
      WakeupLoop m t tmp m'
  /-- `list_delete(&t->node)`, and `scheduler_wake_up(t)`. -/
  | wake {m t tmp m₁ m'} (hne : t ≠ list) (ht : passed t)
      (hput : (m.listDelete t).TaskPut prio ready t (some m₁)) (hrest : WakeupLoop m₁ tmp (m₁ tmp).next m') :
      WakeupLoop m t tmp m'

/-- `clk_wakeup`; `passed` are the tasks with `deadline <= now_ns`. -/
def ClkWakeup (m m' : Nodes) : Prop :=
  if m.listIsEmpty list then m' = m else WakeupLoop prio passed ready list m (m list).next (m (m list).next).next m'

end Nodes

/-- The ready list and a queue of the scheduler are those in memory, and share no node. -/
structure InMemory (s : Sched) (queue : WaitQueue) (m : Nodes) (prio : NodePtr → ℤ) (ready list : NodePtr)
    (xs ys : List NodePtr) : Prop where
  queued : Circular m.links list xs
  readied : ReadyList.Holds ⟨m, prio⟩ ready ys
  disjoint : ∀ y ∈ list :: xs, y ∉ ready :: ys
  not_null : 0 ∉ list :: xs
  queue_eq : s.queues queue = xs.map BitVec.toNat
  ready_eq : s.ready = ys.map BitVec.toNat
  prio_eq : ∀ t : NodePtr, (s.tasks t.toNat).prio = prio t

namespace InMemory

variable {s : Sched} {queue : WaitQueue} {m : Nodes} {prio : NodePtr → ℤ} {ready list t : NodePtr}
  {p r ys : List NodePtr}

/-- A task that leaves the sequence of a queue. -/
theorem erase_map (hnd : (p ++ t :: r).Nodup) :
    ((p ++ t :: r).map BitVec.toNat).erase t.toNat = (p ++ r).map BitVec.toNat := by
  have hnot : t.toNat ∉ p.map BitVec.toNat := by
    intro hmem
    obtain ⟨u, hu, heq⟩ := List.mem_map.mp hmem
    rw [BitVec.eq_of_toNat_eq heq] at hu
    exact (List.nodup_middle.mp hnd).notMem (by simp [hu])
  rw [List.map_append, List.map_cons, List.erase_append_right _ hnot, List.erase_cons_head, List.map_append]

/-- A deletion from the queue does not touch the ready list. -/
theorem readied_listDelete (h : InMemory s queue m prio ready list (p ++ t :: r) ys) :
    ReadyList.Holds ⟨m.listDelete t, prio⟩ ready ys := by
  have hmem : t ∈ list :: (p ++ t :: r) := by simp
  refine ⟨h.readied.circular.congr fun y hy => ?_, h.readied.not_null, h.readied.ordered⟩
  have hoff : y ∉ list :: (p ++ t :: r) := fun hq => h.disjoint y hq hy
  have hsame : m.listDelete t y = m y := by
    apply Nodes.listDelete_of_ne
    · exact fun he => hoff (he ▸ hmem)
    · exact fun he => hoff (he ▸ h.queued.next_mem hmem)
    · exact fun he => hoff (he ▸ h.queued.prev_mem hmem)
  simp [hsame]

/-- **A task that is woken up**: it leaves the queue, and the others stay on it. -/
theorem wake (h : InMemory s queue m prio ready list (p ++ t :: r) ys) :
    ∃ s' m' ys', (s.listDelete queue t.toNat).schedulerWakeUp (some t.toNat) = some s' ∧
      (m.listDelete t).TaskPut prio ready t (some m') ∧ InMemory s' queue m' prio ready list (p ++ r) ys' := by
  have hmem : t ∈ list :: (p ++ t :: r) := by simp
  have hperm : (list :: (p ++ t :: r)).Perm (t :: list :: (p ++ r)) := (List.perm_middle.cons list).trans (.swap ..)
  have hnd : (t :: list :: (p ++ r)).Nodup := hperm.nodup_iff.mp h.queued.nodup
  have hold : ∀ y ∈ list :: (p ++ r), y ∈ list :: (p ++ t :: r) := by
    intro y hy
    simp only [List.mem_cons, List.mem_append] at hy ⊢
    tauto
  have hne : ∀ y ∈ list :: (p ++ r), y ≠ t := fun y hy he => (List.nodup_cons.mp hnd).1 (he ▸ hy)
  -- the task becomes ready, and keeps its priority
  let s₁ := (s.listDelete queue t.toNat).setState t.toNat .ready
  let prioOf : TaskId → ℤ := fun u => (s₁.tasks u).prio
  have hprio : ∀ u : NodePtr, prioOf u.toNat = prio u := by
    intro u
    rw [← h.prio_eq u]
    by_cases hu : u.toNat = t.toNat
    · simp [prioOf, s₁, Sched.setState, Sched.modify, Sched.listDelete, hu]
    · simp [prioOf, s₁, Sched.setState, Sched.modify, Sched.listDelete, hu]
  have hready : s₁.ready = ys.map BitVec.toNat := h.ready_eq
  have hnull : t ≠ 0 := fun he => h.not_null (he ▸ hmem)
  obtain ⟨ys', m', hsched, hput, hholds, hready', hframe⟩ :=
    h.readied_listDelete.taskPut hnull (h.disjoint t hmem) hprio
  refine ⟨{ s₁ with ready := ys'.map BitVec.toNat }, m', ys', ?_, hput, ?_, hholds, ?_, ?_, ?_, rfl, hprio⟩
  · have hput₁ : s₁.putReady t.toNat = some { s₁ with ready := ys'.map BitVec.toNat } := by
      rw [Sched.putReady, hready, hsched, Option.map_some]
    exact hput₁
  · -- the insertion writes to nodes of the ready list, and to the task
    refine (circular_listDelete h.queued).congr fun y hy => ?_
    have hsame : m' y = m.listDelete t y := hframe y (hne y hy) (h.disjoint y (hold y hy))
    simp [hsame]
  · intro y hy hmem'
    rcases List.mem_cons.mp hmem' with rfl | hy'
    · exact h.disjoint y (hold y hy) List.mem_cons_self
    · rcases List.mem_cons.mp (hready'.mem_iff.mp hy') with rfl | hy'
      · exact hne y hy rfl
      · exact h.disjoint y (hold y hy) (List.mem_cons_of_mem ready hy')
  · exact fun hzero => h.not_null (hold 0 hzero)
  · have hqueue : s₁.queues queue = (s.queues queue).erase t.toNat := by
      simp [s₁, Sched.setState, Sched.modify, Sched.listDelete]
    have herase := erase_map (List.nodup_cons.mp h.queued.nodup).2
    exact hqueue.trans (by rw [h.queue_eq, herase])

/-- **The turns of the loop**, which is behind the tasks `p` that have stayed. -/
theorem loop {c : Clk} (h : InMemory s blocked m prio ready list (p ++ r) ys) :
    ∃ s' m' ys', (r.map BitVec.toNat).foldlM c.unblock s = some s' ∧
      m.WakeupLoop prio (fun t => c.deadline t.toNat ≤ c.nowNs) ready list (r.headD list) (m (r.headD list)).next m' ∧
      InMemory s' blocked m' prio ready list (p ++ r.filter fun t => ¬ c.deadline t.toNat ≤ c.nowNs) ys' := by
  -- Induction on the tasks to come, for all memories.
  induction r generalizing s m p ys with
  | nil => exact ⟨s, m, ys, rfl, .done, by simpa using h⟩
  | cons t r ih =>
    have hne : t ≠ list := ne_head h.queued (by simp)
    have hnext : (m t).next = r.headD list := h.queued.next_mid
    simp only [List.map_cons, List.foldlM_cons, List.headD_cons]
    by_cases ht : c.deadline t.toNat ≤ c.nowNs
    · obtain ⟨s₁, m₁, ys₁, hwake, hput, h₁⟩ := h.wake
      obtain ⟨s', m', ys', hfold, hloop, h'⟩ := ih h₁
      refine ⟨s', m', ys', ?_, ?_, ?_⟩
      · simp [Clk.unblock, ht, hwake, hfold]
      · exact .wake hne ht hput (hnext ▸ hloop)
      · simpa [ht] using h'
    · have hrest : InMemory s blocked m prio ready list ((p ++ [t]) ++ r) ys := by simpa using h
      obtain ⟨s', m', ys', hfold, hloop, h'⟩ := ih hrest
      have hlater : c.nowNs < c.deadline t.toNat := UInt64.not_le.mp ht
      refine ⟨s', m', ys', ?_, ?_, ?_⟩
      · simp [Clk.unblock, ht, hfold]
      · exact .stay hne ht (hnext ▸ hloop)
      · simpa [hlater] using h'

end InMemory

/-- **`clk_wakeup` in memory.** On a queue and a ready list in memory, the function of `clk.c` ends, and leaves in
memory the lists of `Clk.clkWakeup`. -/
theorem clkWakeup_inMemory {c : Clk} {m : Nodes} {prio : NodePtr → ℤ} {ready list : NodePtr} {xs ys : List NodePtr}
    (h : InMemory c.toSched blocked m prio ready list xs ys) :
    ∃ s' m' ys', c.clkWakeup = some { c with toSched := s' } ∧
      m.ClkWakeup prio (fun t => c.deadline t.toNat ≤ c.nowNs) ready list m' ∧
      InMemory s' blocked m' prio ready list (xs.filter fun t => ¬ c.deadline t.toNat ≤ c.nowNs) ys' := by
  obtain ⟨s', m', ys', hfold, hloop, h'⟩ := h.loop (p := []) (c := c)
  cases xs with
  | nil =>
    -- the function returns at once
    have hqueue : c.queues blocked = [] := h.queue_eq
    refine ⟨c.toSched, m, ys, ?_, ?_, h⟩
    · simp [Clk.clkWakeup, hqueue]
    · simp [Nodes.ClkWakeup, Nodes.listIsEmpty_eq h.queued]
  | cons x xs =>
    have hqueue : c.queues blocked = (x :: xs).map BitVec.toNat := h.queue_eq
    have hhead : (m list).next = x := h.queued.next_head
    refine ⟨s', m', ys', ?_, ?_, h'⟩
    · rw [Clk.clkWakeup, if_neg (by simp [hqueue]), hqueue, hfold, Option.map_some]
    · simpa [Nodes.ClkWakeup, Nodes.listIsEmpty_eq h.queued, hhead] using hloop

end I80k.Kernel

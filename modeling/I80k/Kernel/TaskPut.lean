import I80k.Kernel.IntrusiveList
import I80k.Kernel.SchedulerOrder

/-!
# The ready list in memory

`task_put` adds a task to a list that is ordered by decreasing priority. It has three ways: a list without
elements, a task that goes behind the last one, and a loop that looks for the first task of a lower
priority. If the last one has a lower priority there is such a task, and the assertion behind the loop is not
reached.

A task goes behind those of its own priority, and `task_get` takes the first one: among the tasks of one
priority the list is a queue.

A pointer to a task is a pointer to its node, the first field of `struct task`.

## Main definitions

* `Nodes.taskGet`, `Nodes.TaskPut`: the functions of `scheduler.c`, on the nodes in memory
* `ReadyList`: the nodes, and the priorities of the tasks; `ReadyList.Holds`: a list with its order
* `ReadyList.Run`: insertions and removals, with the tasks that entered and left

## Main results

* `taskPut_split`: where `task_put` adds a task
* `ReadyList.Holds.put`: it does so in memory
* `ReadyList.Holds.taskPut`: the lists of `Sched` are those in memory
* `task_put_ordered_stable`: what holds in every run
-/

namespace I80k.Kernel

open CircularLinks

namespace Nodes

variable (m : Nodes) (prio : NodePtr → ℤ) (list task : NodePtr)

/-- `task_get`: the task, or null. -/
def taskGet : NodePtr × Nodes := m.listRemoveHead list

/-- A turn of the loop of `task_put`, with `t`. The result is null if the loop ends. -/
def taskPutTurn (t : NodePtr) : NodePtr ⊕ Option Nodes :=
  if t ≠ list then
    if prio t < prio task then .inr (some (m.listAddTail t task)) else .inl (m t).next
  else .inr none -- assert(0)

/-- `task_put` ends with the nodes, or in the assertion. -/
def TaskPut (result : Option Nodes) : Prop :=
  if m.listIsEmpty list then result = some (m.listAddTail list task)
  else if m.listPeekTail list ≠ 0 ∧ prio task ≤ prio (m.listPeekTail list) then
    result = some (m.listAddHead (m.listPeekTail list) task)
  else Loop.Returns (m.taskPutTurn prio list task) (m list).next result

end Nodes

/-! ## Lists of tasks -/

section Split

variable {prio : TaskId → ℤ} {task : TaskId} {l r : List TaskId}

theorem taskInsert_split {u : TaskId} (hl : ∀ t ∈ l, prio task ≤ prio t) (hu : prio u < prio task) :
    taskInsert prio task (l ++ u :: r) = some (l ++ task :: u :: r) := by
  induction l with
  | nil => simp [taskInsert, hu]
  | cons t l ih =>
    have ht : ¬ prio t < prio task := not_lt.mpr (hl t List.mem_cons_self)
    have hins := ih fun t ht => hl t (List.mem_cons_of_mem _ ht)
    simp [taskInsert, ht, hins]

/-- **Where `task_put` adds a task**: behind those of at least its priority. -/
theorem taskPut_split (hl : ∀ t ∈ l, prio task ≤ prio t) (hr : ∀ t ∈ r, prio t < prio task) :
    taskPut prio task (l ++ r) = some (l ++ task :: r) := by
  cases r with
  | nil =>
    rcases List.eq_nil_or_concat' l with rfl | ⟨ys, t, rfl⟩
    · rfl
    · have hle : prio task ≤ prio t := hl t (by simp)
      simp [taskPut, hle]
  | cons u r =>
    obtain ⟨ys, t, ht⟩ : ∃ ys t, u :: r = ys ++ [t] := (List.eq_nil_or_concat' (u :: r)).resolve_left (by simp)
    have hlast : (l ++ u :: r).getLast? = some t := by simp [ht, ← List.append_assoc]
    have hlow : ¬ prio task ≤ prio t := not_le.mpr (hr t (by simp [ht]))
    simpa [taskPut, hlast, hlow] using taskInsert_split hl (hr u List.mem_cons_self)

/-- An ordered list has the tasks of at least some priority in front of the others. -/
theorem exists_split {α : Type} {key : α → ℤ} {xs : List α} (hord : xs.Pairwise fun t u => key u ≤ key t) (p : ℤ) :
    ∃ l r, xs = l ++ r ∧ (∀ t ∈ l, p ≤ key t) ∧ ∀ t ∈ r, key t < p := by
  induction xs with
  | nil => exact ⟨[], [], rfl, by simp, by simp⟩
  | cons x xs ih =>
    obtain ⟨hx, hxs⟩ := List.pairwise_cons.mp hord
    by_cases hle : p ≤ key x
    · obtain ⟨l, r, rfl, hl, hr⟩ := ih hxs
      refine ⟨x :: l, r, rfl, fun t ht => ?_, hr⟩
      rcases List.mem_cons.mp ht with rfl | ht
      · exact hle
      · exact hl t ht
    · refine ⟨[], x :: xs, rfl, by simp, fun t ht => ?_⟩
      rcases List.mem_cons.mp ht with rfl | ht
      · exact not_le.mp hle
      · exact (hx t ht).trans_lt (not_le.mp hle)

end Split

/-! ## In memory -/

namespace Nodes

variable {m : Nodes} {prio : NodePtr → ℤ} {h task u : NodePtr} {p l r : List NodePtr}

/-- The loop of `task_put` adds the task before the first one of a lower priority. -/
theorem taskPut_loop (hc : Circular m.links h (p ++ (l ++ u :: r))) (hl : ∀ t ∈ l, prio task ≤ prio t)
    (hu : prio u < prio task) :
    Loop.Returns (m.taskPutTurn prio h task) ((l ++ u :: r).headD h) (some (m.listAddTail u task)) := by
  induction l generalizing p with
  | nil =>
    have huh : u ≠ h := ne_head hc (by simp)
    have hturn : m.taskPutTurn prio h task u = .inr (some (m.listAddTail u task)) := by
      simp [taskPutTurn, huh, hu]
    exact (Loop.returns_of_inr hturn).mpr rfl
  | cons t l ih =>
    have hth : t ≠ h := ne_head hc (by simp)
    have ht : ¬ prio t < prio task := not_lt.mpr (hl t List.mem_cons_self)
    have hnext : (m t).next = (l ++ u :: r).headD h := hc.next_mid
    have hturn : m.taskPutTurn prio h task t = .inl ((l ++ u :: r).headD h) := by
      simp [taskPutTurn, hth, ht, hnext]
    have hrest : Circular m.links h ((p ++ [t]) ++ (l ++ u :: r)) := by simpa using hc
    exact (Loop.returns_of_inl hturn).mpr (ih hrest fun t ht => hl t (List.mem_cons_of_mem _ ht))

/-- A task on an empty list. -/
theorem taskPut_nil (hc : Circular m.links h []) (htask : task ∉ [h]) :
    (∀ result, m.TaskPut prio h task result ↔ result = some (m.listAddTail h task)) ∧
      Circular (m.listAddTail h task).links h [task] ∧ ∀ y, y ≠ task → y ≠ h → m.listAddTail h task y = m y := by
  have hth : task ≠ h := fun he => htask (he ▸ List.mem_cons_self)
  refine ⟨fun result => ?_, ?_, fun y hy hyh => ?_⟩
  · simp [TaskPut, listIsEmpty_eq hc]
  · rw [links_listAddTail hth]
    exact hc.insertBefore_head htask
  · apply listAddTail_of_ne hth hy hyh
    exact fun he => hyh (he ▸ List.mem_singleton.mp (hc.prev_mem List.mem_cons_self))

/-- A task behind the last one, whose priority is at least its own. -/
theorem taskPut_last {t : NodePtr} (hc : Circular m.links h (l ++ [t])) (hnull : 0 ∉ h :: (l ++ [t]))
    (htask : task ∉ h :: (l ++ [t])) (hle : prio task ≤ prio t) :
    (∀ result, m.TaskPut prio h task result ↔ result = some (m.listAddHead t task)) ∧
      Circular (m.listAddHead t task).links h (l ++ [t, task]) ∧
        ∀ y, y ≠ task → y ∉ h :: (l ++ [t]) → m.listAddHead t task y = m y := by
  have htail : m.listPeekTail h = t := by rw [listPeekTail_eq hc, List.getLastD_concat]
  have ht0 : t ≠ 0#16 := fun he => hnull (by simp [he])
  have htt : task ≠ t := fun he => htask (by simp [he])
  refine ⟨fun result => ?_, ?_, fun y hy hyh => ?_⟩
  · simp [TaskPut, listIsEmpty_eq hc, htail, ht0, hle]
  · rw [links_listAddHead htt]
    exact hc.insertAfter htask
  · apply listAddHead_of_ne htt hy
    · exact fun he => hyh (by simp [he])
    · exact fun he => hyh (he ▸ hc.next_mem (by simp))

/-- A task before the first one of a lower priority. -/
theorem taskPut_before (hc : Circular m.links h (l ++ u :: r)) (htask : task ∉ h :: (l ++ u :: r))
    (hl : ∀ t ∈ l, prio task ≤ prio t) (hr : ∀ t ∈ u :: r, prio t < prio task) :
    (∀ result, m.TaskPut prio h task result ↔ result = some (m.listAddTail u task)) ∧
      Circular (m.listAddTail u task).links h (l ++ task :: u :: r) ∧
        ∀ y, y ≠ task → y ∉ h :: (l ++ u :: r) → m.listAddTail u task y = m y := by
  -- the last one has a lower priority
  obtain ⟨ys, t, ht⟩ : ∃ ys t, u :: r = ys ++ [t] := (List.eq_nil_or_concat' (u :: r)).resolve_left (by simp)
  have htail : m.listPeekTail h = t := by
    rw [listPeekTail_eq hc, ht, ← List.append_assoc, List.getLastD_concat]
  have hlow : ¬ prio task ≤ prio t := not_le.mpr (hr t (by simp [ht]))
  have hfirst : (m h).next = (l ++ u :: r).headD h := hc.next_head
  have hloop := taskPut_loop (p := []) hc hl (hr u List.mem_cons_self)
  have htu : task ≠ u := fun he => htask (by simp [he])
  refine ⟨fun result => ?_, ?_, fun y hy hyh => ?_⟩
  · have hput : m.TaskPut prio h task result ↔
        Loop.Returns (m.taskPutTurn prio h task) ((l ++ u :: r).headD h) result := by
      simp [TaskPut, listIsEmpty_eq hc, htail, hlow, hfirst]
    rw [hput, hloop.iff_eq, eq_comm]
  · rw [links_listAddTail htu]
    exact hc.insertBefore htask
  · apply listAddTail_of_ne htu hy
    · exact fun he => hyh (by simp [he])
    · exact fun he => hyh (he ▸ hc.prev_mem (by simp))

/-- **`task_put` in memory** adds the task behind those of at least its priority. It writes to no node
that is not on the list, and does not end in the assertion. -/
theorem taskPut_spec (hc : Circular m.links h (l ++ r)) (hnull : 0 ∉ h :: (l ++ r))
    (htask : task ∉ h :: (l ++ r)) (hl : ∀ t ∈ l, prio task ≤ prio t) (hr : ∀ t ∈ r, prio t < prio task) :
    ∃ m', (∀ result, m.TaskPut prio h task result ↔ result = some m') ∧
      Circular m'.links h (l ++ task :: r) ∧ ∀ y, y ≠ task → y ∉ h :: (l ++ r) → m' y = m y := by
  cases r with
  | nil =>
    rcases List.eq_nil_or_concat' l with rfl | ⟨ys, t, rfl⟩
    · obtain ⟨hput, hcirc, hframe⟩ := taskPut_nil hc htask
      exact ⟨_, hput, hcirc, fun y hy hyh => hframe y hy fun he => hyh (he ▸ List.mem_cons_self)⟩
    · rw [List.append_nil] at hc hnull htask ⊢
      obtain ⟨hput, hcirc, hframe⟩ := taskPut_last hc hnull htask (hl t (by simp))
      rw [List.append_assoc]
      exact ⟨_, hput, hcirc, hframe⟩
  | cons u r => exact ⟨_, taskPut_before hc htask hl hr⟩

end Nodes

/-! ## Runs -/

/-- The nodes in memory, and the priorities of their tasks. -/
structure ReadyList where
  nodes : Nodes
  prio : NodePtr → ℤ

namespace ReadyList

/-- The list `h` has the tasks `xs`, by decreasing priority. -/
structure Holds (s : ReadyList) (h : NodePtr) (xs : List NodePtr) : Prop where
  circular : Circular s.nodes.links h xs
  not_null : 0 ∉ h :: xs
  ordered : xs.Pairwise fun t u => s.prio u ≤ s.prio t

/-- Tasks with their priorities. -/
def withPrio (s : ReadyList) (xs : List NodePtr) : List (NodePtr × ℤ) := xs.map fun t => (t, s.prio t)

/-- Insertions and removals of tasks, with those that entered and those that left, in this order. A task that is
not on the list gets a priority and is put; the first one is taken, if there is one. -/
inductive Run (h : NodePtr) (s : ReadyList) : List (NodePtr × ℤ) → List (NodePtr × ℤ) → ReadyList → Prop
  | nil : Run h s [] [] s
  | put {entered left : List (NodePtr × ℤ)} {t : ReadyList} {task : NodePtr} {p : ℤ} {nodes : Nodes}
      (hrun : Run h s entered left t) (hnull : task ≠ 0)
      (htask : ∀ xs, Circular t.nodes.links h xs → task ∉ h :: xs)
      (hput : t.nodes.TaskPut (Function.update t.prio task p) h task (some nodes)) :
      Run h s (entered ++ [(task, p)]) left ⟨nodes, Function.update t.prio task p⟩
  | get {entered left : List (NodePtr × ℤ)} {t : ReadyList} {task : NodePtr} {nodes : Nodes}
      (hrun : Run h s entered left t) (hnull : task ≠ 0) (hget : t.nodes.taskGet h = (task, nodes)) :
      Run h s entered (left ++ [(task, t.prio task)]) ⟨nodes, t.prio⟩
  | get_empty {entered left : List (NodePtr × ℤ)} {t : ReadyList} {nodes : Nodes}
      (hrun : Run h s entered left t) (hget : t.nodes.taskGet h = (0, nodes)) :
      Run h s entered left ⟨nodes, t.prio⟩

variable {s t : ReadyList} {h task : NodePtr} {xs ys : List NodePtr} {p : ℤ}

theorem withPrio_append : s.withPrio (xs ++ ys) = s.withPrio xs ++ s.withPrio ys := List.map_append

/-- A list depends on the priorities of its own tasks only. -/
theorem withPrio_update (nodes : Nodes) (htask : task ∉ xs) :
    withPrio ⟨nodes, Function.update s.prio task p⟩ xs = s.withPrio xs := by
  apply List.map_congr_left
  intro t ht
  have hne : t ≠ task := fun he => htask (he ▸ ht)
  simp [hne]

/-- **`task_put` on an ordered list.** -/
theorem Holds.put (hs : s.Holds h xs) (hnull : task ≠ 0) (htask : task ∉ h :: xs) :
    ∃ l r nodes, xs = l ++ r ∧ (∀ t ∈ l, s.prio task ≤ s.prio t) ∧ (∀ t ∈ r, s.prio t < s.prio task) ∧
      (∀ result, s.nodes.TaskPut s.prio h task result ↔ result = some nodes) ∧
      Holds ⟨nodes, s.prio⟩ h (l ++ task :: r) ∧ ∀ y, y ≠ task → y ∉ h :: xs → nodes y = s.nodes y := by
  obtain ⟨l, r, rfl, hl, hr⟩ := exists_split hs.ordered (s.prio task)
  obtain ⟨nodes, hput, hc, hframe⟩ := Nodes.taskPut_spec hs.circular hs.not_null htask hl hr
  refine ⟨l, r, nodes, rfl, hl, hr, hput, ⟨hc, ?_, ?_⟩, hframe⟩
  · have hzero := hs.not_null
    simp only [List.mem_cons, List.mem_append, not_or] at hzero ⊢
    exact ⟨hzero.1, hzero.2.1, hnull.symm, hzero.2.2⟩
  · obtain ⟨hol, hor, hlr⟩ := List.pairwise_append.mp hs.ordered
    refine List.pairwise_append.mpr ⟨hol, List.pairwise_cons.mpr ⟨fun t ht => (hr t ht).le, hor⟩, fun t ht u hu => ?_⟩
    rcases List.mem_cons.mp hu with rfl | hu
    · exact hl t ht
    · exact hlr t ht u hu

/-- A task that is not on the list may get any priority. -/
theorem Holds.setPrio (hs : s.Holds h xs) (htask : task ∉ h :: xs) (p : ℤ) :
    Holds ⟨s.nodes, Function.update s.prio task p⟩ h xs := by
  refine ⟨hs.circular, hs.not_null, hs.ordered.imp_of_mem fun {u v} hu hv huv => ?_⟩
  have hut : u ≠ task := fun he => htask (List.mem_cons_of_mem h (he ▸ hu))
  have hvt : v ≠ task := fun he => htask (List.mem_cons_of_mem h (he ▸ hv))
  simpa [hut, hvt] using huv

/-- **A task that gets a priority and is put** on an ordered list. -/
theorem Holds.enter (hs : s.Holds h xs) (hnull : task ≠ 0) (htask : task ∉ h :: xs) (p : ℤ) :
    ∃ l r nodes, xs = l ++ r ∧ (∀ t ∈ l, p ≤ s.prio t) ∧ (∀ t ∈ r, s.prio t < p) ∧
      (∀ result, s.nodes.TaskPut (Function.update s.prio task p) h task result ↔ result = some nodes) ∧
      Holds ⟨nodes, Function.update s.prio task p⟩ h (l ++ task :: r) ∧
      ∀ y, y ≠ task → y ∉ h :: xs → nodes y = s.nodes y := by
  obtain ⟨l, r, nodes, rfl, hl, hr, hput, hholds, hframe⟩ := (hs.setPrio htask p).put hnull htask
  refine ⟨l, r, nodes, rfl, fun t ht => ?_, fun t ht => ?_, hput, hholds, hframe⟩
  · have hne : t ≠ task := fun he => htask (by simp [← he, ht])
    simpa [hne] using hl t ht
  · have hne : t ≠ task := fun he => htask (by simp [← he, ht])
    simpa [hne] using hr t ht

/-- The lists of tasks of the scheduler, where they are ordered, are those in memory. -/
theorem Holds.taskPut (hs : s.Holds h xs) (hnull : task ≠ 0) (htask : task ∉ h :: xs) {prio : TaskId → ℤ}
    (hprio : ∀ t : NodePtr, prio t.toNat = s.prio t) :
    ∃ ys nodes, Kernel.taskPut prio task.toNat (xs.map BitVec.toNat) = some (ys.map BitVec.toNat) ∧
      s.nodes.TaskPut s.prio h task (some nodes) ∧ Holds ⟨nodes, s.prio⟩ h ys ∧ ys.Perm (task :: xs) ∧
      ∀ y, y ≠ task → y ∉ h :: xs → nodes y = s.nodes y := by
  obtain ⟨l, r, nodes, rfl, hl, hr, hput, hholds, hframe⟩ := hs.put hnull htask
  refine ⟨l ++ task :: r, nodes, ?_, (hput _).mpr rfl, hholds, List.perm_middle, hframe⟩
  have hsplit : Kernel.taskPut prio task.toNat (l.map BitVec.toNat ++ r.map BitVec.toNat) =
      some (l.map BitVec.toNat ++ task.toNat :: r.map BitVec.toNat) := by
    apply taskPut_split
    · intro n hn
      obtain ⟨t, ht, rfl⟩ := List.mem_map.mp hn
      rw [hprio, hprio]
      exact hl t ht
    · intro n hn
      obtain ⟨t, ht, rfl⟩ := List.mem_map.mp hn
      rw [hprio, hprio]
      exact hr t ht
  simpa using hsplit

/-- `task_get` takes the first task. -/
theorem Holds.get {x : NodePtr} (hs : s.Holds h (x :: xs)) :
    s.nodes.taskGet h = (x, s.nodes.listDelete x) ∧ Holds ⟨s.nodes.listDelete x, s.prio⟩ h xs := by
  refine ⟨Nodes.listRemoveHead_cons hs.circular, circular_listDelete (l := []) hs.circular, ?_, ?_⟩
  · have hzero := hs.not_null
    simp only [List.mem_cons, not_or] at hzero ⊢
    exact ⟨hzero.1, hzero.2.2⟩
  · exact (List.pairwise_cons.mp hs.ordered).2

/-- `task_get` on an empty list. -/
theorem Holds.get_nil (hs : s.Holds h []) : s.nodes.taskGet h = (0, s.nodes) := Nodes.listRemoveHead_nil hs.circular

/-- The tasks of a list to which one was added. -/
theorem withPrio_enter {l r : List NodePtr} {q : ℤ} (nodes : Nodes) (hl : task ∉ l) (hr : task ∉ r) :
    withPrio ⟨nodes, Function.update s.prio task q⟩ (l ++ task :: r) =
      s.withPrio l ++ ((task, q) :: s.withPrio r) := by
  have htask : withPrio ⟨nodes, Function.update s.prio task q⟩ [task] = [(task, q)] := by simp [withPrio]
  rw [← List.singleton_append, withPrio_append, withPrio_append, htask, withPrio_update nodes hl,
    withPrio_update nodes hr, List.singleton_append]

/-- Behind a task that was added there is none of its priority: it is the last one of these. -/
theorem filter_enter {r : List NodePtr} {q : ℤ} (hr : ∀ t ∈ r, s.prio t < q) :
    ((task, q) :: s.withPrio r).filter (fun e => e.2 = p) = (s.withPrio r ++ [(task, q)]).filter fun e => e.2 = p := by
  by_cases hqp : q = p
  · have hlater : (s.withPrio r).filter (fun e => e.2 = p) = [] := by
      apply List.filter_eq_nil_iff.mpr
      intro e he
      obtain ⟨u, hu, rfl⟩ := List.mem_map.mp he
      have hlt : s.prio u < p := hqp ▸ hr u hu
      simpa using hlt.ne
    rw [List.filter_append, hlater, List.nil_append, List.filter_cons, hlater, List.filter_cons, List.filter_nil]
  · simp [hqp]

/-- **In every run** the list is ordered, and of the tasks of each priority those that left, and then
those on the list, are those that were there first and then entered, in the same order. -/
theorem Holds.run {entered left : List (NodePtr × ℤ)} (hs : s.Holds h xs) (hrun : Run h s entered left t) :
    ∃ ys, t.Holds h ys ∧ ∀ p, (left ++ t.withPrio ys).filter (fun e => e.2 = p) =
      (s.withPrio xs ++ entered).filter fun e => e.2 = p := by
  induction hrun with
  | nil => exact ⟨xs, hs, fun p => by simp⟩
  | @put entered left t task q nodes _ hnull htask hput ih =>
    obtain ⟨ys, hys, hfifo⟩ := ih
    have hmem := htask ys hys.circular
    obtain ⟨l, r, nodes', rfl, hl, hr, hput', hholds, -⟩ := hys.enter hnull hmem q
    obtain rfl : nodes = nodes' := Option.some.inj ((hput' _).mp hput)
    refine ⟨l ++ task :: r, hholds, fun p => ?_⟩
    have hml : task ∉ l := fun hm => hmem (by simp [hm])
    have hmr : task ∉ r := fun hm => hmem (by simp [hm])
    let ofPrio : List (NodePtr × ℤ) → List (NodePtr × ℤ) := List.filter fun e => e.2 = p
    have hold : ofPrio (left ++ t.withPrio (l ++ r)) = ofPrio (s.withPrio xs ++ entered) := hfifo p
    calc ofPrio (left ++ withPrio ⟨nodes, Function.update t.prio task q⟩ (l ++ task :: r))
      _ = ofPrio (left ++ (t.withPrio l ++ (task, q) :: t.withPrio r)) := by rw [withPrio_enter nodes hml hmr]
      _ = ofPrio (left ++ (t.withPrio l ++ t.withPrio r)) ++ ofPrio [(task, q)] := by
        simp only [ofPrio, List.filter_append, filter_enter hr, List.append_assoc]
      _ = ofPrio (s.withPrio xs ++ entered) ++ ofPrio [(task, q)] := by rw [← withPrio_append, hold]
      _ = ofPrio (s.withPrio xs ++ (entered ++ [(task, q)])) := by
        rw [← List.filter_append, List.append_assoc]
  | @get entered left t task nodes _ hnull hget ih =>
    obtain ⟨ys, hys, hfifo⟩ := ih
    cases ys with
    | nil =>
      exact absurd (Prod.mk.inj (hget.symm.trans hys.get_nil)).1 hnull
    | cons y ys =>
      obtain ⟨hhead, htail⟩ := hys.get
      obtain ⟨rfl, rfl⟩ := Prod.mk.inj (hget.symm.trans hhead)
      refine ⟨ys, htail, fun p => ?_⟩
      rw [← hfifo p]
      simp [withPrio]
  | @get_empty entered left t nodes _ hget ih =>
    obtain ⟨ys, hys, hfifo⟩ := ih
    cases ys with
    | nil =>
      obtain ⟨-, rfl⟩ := Prod.mk.inj (hget.symm.trans hys.get_nil)
      exact ⟨[], hys, hfifo⟩
    | cons y ys =>
      obtain ⟨rfl, -⟩ := Prod.mk.inj (hget.symm.trans hys.get.1)
      exact absurd (List.mem_cons_of_mem h List.mem_cons_self) hys.not_null

end ReadyList

/-- **Insertion into the ready list is ordered and stable.** In every run from an ordered list, `task_put` adds a
task behind those of at least its priority and before the others, which stay as they are, and does not
end in the assertion. The tasks of each priority leave in the order in which they entered. -/
theorem task_put_ordered_stable {s t : ReadyList} {h : NodePtr} {xs : List NodePtr}
    {entered left : List (NodePtr × ℤ)} (hs : s.Holds h xs) (hrun : ReadyList.Run h s entered left t) :
    ∃ ys, t.Holds h ys ∧
      (∀ p, (left ++ t.withPrio ys).filter (fun e => e.2 = p) =
        (s.withPrio xs ++ entered).filter fun e => e.2 = p) ∧
      ∀ task p, task ≠ 0 → task ∉ h :: ys →
        ∃ l r nodes, ys = l ++ r ∧ (∀ u ∈ l, p ≤ t.prio u) ∧ (∀ u ∈ r, t.prio u < p) ∧
          (∀ result, t.nodes.TaskPut (Function.update t.prio task p) h task result ↔ result = some nodes) ∧
          ReadyList.Holds ⟨nodes, Function.update t.prio task p⟩ h (l ++ task :: r) ∧
          ∀ y, y ≠ task → y ∉ h :: ys → nodes y = t.nodes y := by
  obtain ⟨ys, hys, hfifo⟩ := hs.run hrun
  exact ⟨ys, hys, hfifo, fun task p hnull htask => hys.enter hnull htask p⟩

/-- A list with one task, and one more of the same priority. -/
theorem task_put_ordered_stable_same :
    ∃ nodes, Nodes.TaskPut (fun x => if x = 2 then ⟨4, 4⟩ else ⟨2, 2⟩) (Function.update (fun _ => 0) 6 0) 2 6
        (some nodes) ∧
      ReadyList.Holds ⟨nodes, Function.update (fun _ => 0) 6 0⟩ 2 [4, 6] := by
  let s : ReadyList := ⟨fun x => if x = 2 then ⟨4, 4⟩ else ⟨2, 2⟩, fun _ => 0⟩
  have hc : Circular s.nodes.links 2 [4] := by
    refine ⟨by decide, List.isChain_cons_cons.mpr ⟨⟨rfl, rfl⟩, List.isChain_cons_cons.mpr ⟨⟨rfl, rfl⟩, ?_⟩⟩⟩
    exact List.isChain_singleton 2
  have hs : s.Holds 2 [4] := ⟨hc, by decide, List.pairwise_singleton _ _⟩
  obtain ⟨ys, hys, -, hput⟩ := task_put_ordered_stable hs .nil
  obtain rfl : [4] = ys := hc.unique hys.circular
  obtain ⟨l, r, nodes, heq, hl, hr, hres, hholds, -⟩ := hput 6 0 (by decide) (by decide)
  -- no task is below the priority of all
  obtain rfl : r = [] := List.eq_nil_iff_forall_not_mem.mpr fun u hu => absurd (hr u hu) (by simp [s])
  obtain rfl : [4] = l := by simpa using heq
  exact ⟨nodes, (hres _).mpr rfl, hholds⟩

end I80k.Kernel

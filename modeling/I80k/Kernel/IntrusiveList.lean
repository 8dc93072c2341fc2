import I80k.Lib.Circular
import I80k.Lib.Loop
import I80k.Lib.Run

/-!
# Intrusive lists

The lists of `kernel/core/list.h` are circular: the head is a node like those of the elements, and the elements
carry their nodes in themselves. Each function writes to at most four links, and the neighbours it
writes to may be the head, or one another.

What a set of such lists is meant to be is a sequence for each head. The nodes are shared by all lists, so it is
part of the meaning that no node is on two of them. A node that is added may have any links before: it can be
new, it can have been deleted from a list, and it can be the head of a list of its own that is empty, as the node
of the first task is.

## Main definitions

* `Nodes`: the nodes in memory, and the functions of `list.h`
* `Nodes.exec`: a call of one of the functions
* `Lists`: sequences of nodes; `Lists.Step`, `Lists.Run`: the operations on sequences
* `Represents`: the links of the nodes are those of the lists
* `Observes`, `Keeps`: what the functions that look at a list find, and the nodes that a call leaves alone

## Main results

* `Nodes.links_listAddHead`, `Nodes.links_listAddTail`, `Nodes.links_listDelete`: the writes, as changes of links
* `Represents.link`, `Represents.unlink`: what is enough for a change of one list
* `Represents.step`: a call does what the operation on the sequences does
* `lists_implement_sequences`: so do all sequences of calls
-/

namespace I80k.Kernel

open CircularLinks

/-- A pointer to a node, of 16 bits. -/
abbrev NodePtr := BitVec 16

/-- `struct list_node`. -/
structure ListNode where
  prev : NodePtr
  next : NodePtr

/-- The nodes in memory. -/
abbrev Nodes := NodePtr → ListNode

/-! ## The functions of `list.h` -/

namespace Nodes

variable (m : Nodes) (list item : NodePtr)

/-- A write to `x->prev`. -/
def setPrev (x v : NodePtr) : Nodes := Function.update m x { m x with prev := v }

/-- A write to `x->next`. -/
def setNext (x v : NodePtr) : Nodes := Function.update m x { m x with next := v }

/-- `list_initialize`. -/
def listInitialize : Nodes := (m.setNext list list).setPrev list list

/-- `list_in_list`. -/
def listInList : Bool := if (m item).prev = 0 ∧ (m item).next = 0 then false else true

/-- `list_add_head`, and `list_add_after`. -/
def listAddHead : Nodes :=
  let m := m.setNext item (m list).next
  let m := m.setPrev item list
  let m := m.setPrev (m list).next item
  m.setNext list item

/-- `list_add_tail`, and `list_add_before`. -/
def listAddTail : Nodes :=
  let m := m.setPrev item (m list).prev
  let m := m.setNext item list
  let m := m.setNext (m list).prev item
  m.setPrev list item

/-- `list_delete`. -/
def listDelete : Nodes :=
  let m := m.setPrev (m item).next (m item).prev
  let m := m.setNext (m item).prev (m item).next
  (m.setNext item 0).setPrev item 0

/-- `list_remove_head`: the element that was removed, or null. -/
def listRemoveHead : NodePtr × Nodes :=
  if (m list).next ≠ list then ((m list).next, m.listDelete (m list).next) else (0, m)

/-- `list_remove_tail`. -/
def listRemoveTail : NodePtr × Nodes :=
  if (m list).prev ≠ list then ((m list).prev, m.listDelete (m list).prev) else (0, m)

/-- `list_peek_head`. -/
def listPeekHead : NodePtr := if (m list).next ≠ list then (m list).next else 0

/-- `list_peek_tail`. -/
def listPeekTail : NodePtr := if (m list).prev ≠ list then (m list).prev else 0

/-- `list_is_empty`. -/
def listIsEmpty : Bool := if (m list).next = list then true else false

/-- A turn of the loop of `list_length`, with `node` and `cnt`. -/
def listLengthTurn (s : NodePtr × BitVec 16) : (NodePtr × BitVec 16) ⊕ BitVec 16 :=
  if s.1 ≠ list then .inl ((m s.1).next, s.2 + 1) else .inr s.2

/-- `list_length` returns `cnt`. -/
def ListLength (cnt : BitVec 16) : Prop := Loop.Returns (m.listLengthTurn list) ((m list).next, 0) cnt

end Nodes

/-- A call of a function that changes lists. -/
inductive ListOp
  | listInitialize (list : NodePtr)
  | listAddHead (list item : NodePtr)
  | listAddTail (list item : NodePtr)
  | listAddAfter (entry item : NodePtr)
  | listAddBefore (entry item : NodePtr)
  | listDelete (item : NodePtr)
  | listRemoveHead (list : NodePtr)
  | listRemoveTail (list : NodePtr)

/-- The nodes that a call names. -/
def ListOp.args : ListOp → List NodePtr
  | listInitialize list => [list]
  | listAddHead list item => [list, item]
  | listAddTail list item => [list, item]
  | listAddAfter entry item => [entry, item]
  | listAddBefore entry item => [entry, item]
  | listDelete item => [item]
  | listRemoveHead list => [list]
  | listRemoveTail list => [list]

/-- A call: its result, if it has one, and the nodes after it. -/
def Nodes.exec (m : Nodes) : ListOp → Option NodePtr × Nodes
  | .listInitialize list => (none, m.listInitialize list)
  | .listAddHead list item => (none, m.listAddHead list item)
  | .listAddTail list item => (none, m.listAddTail list item)
  | .listAddAfter entry item => (none, m.listAddHead entry item)
  | .listAddBefore entry item => (none, m.listAddTail entry item)
  | .listDelete item => (none, m.listDelete item)
  | .listRemoveHead list => ((m.listRemoveHead list).1, (m.listRemoveHead list).2)
  | .listRemoveTail list => ((m.listRemoveTail list).1, (m.listRemoveTail list).2)

/-- The nodes after a sequence of calls. -/
def Nodes.execs (m : Nodes) (ops : List ListOp) : Nodes := ops.foldl (fun m op => (m.exec op).2) m

/-! ## Sequences -/

/-- The sequences of some lists, by their heads, and the nodes that were deleted and not added again. -/
structure Lists where
  seq : NodePtr → Option (List NodePtr)
  deleted : Set NodePtr

namespace Lists

variable (a : Lists)

/-- The node can be added to a list: it is on none, except for an empty one of its own. -/
def Unlinked (x : NodePtr) : Prop :=
  x ≠ 0 ∧ ∀ h xs, a.seq h = some xs → x ∈ h :: xs → h = x ∧ xs = []

/-- The list `h` becomes `ys`, that has the node `x` from now on. -/
def link (h : NodePtr) (ys : List NodePtr) (x : NodePtr) : Lists where
  seq := Function.update (Function.update a.seq x none) h (some ys)
  deleted := a.deleted \ {x}

/-- The list `h` becomes `ys`, without the node `x`. -/
def unlink (h : NodePtr) (ys : List NodePtr) (x : NodePtr) : Lists where
  seq := Function.update a.seq h (some ys)
  deleted := insert x a.deleted

/-- **The operations on sequences**, with their results. -/
inductive Step : ListOp → Option NodePtr → Lists → Prop
  | listInitialize {h} (hnull : h ≠ 0) (hfree : ∀ h' xs, a.seq h' = some xs → h ∉ xs) :
      Step (.listInitialize h) none (a.link h [] h)
  | listAddHead {h item xs} (hs : a.seq h = some xs) (hu : a.Unlinked item) (hne : item ≠ h) :
      Step (.listAddHead h item) none (a.link h (item :: xs) item)
  | listAddTail {h item xs} (hs : a.seq h = some xs) (hu : a.Unlinked item) (hne : item ≠ h) :
      Step (.listAddTail h item) none (a.link h (xs ++ [item]) item)
  | listAddAfter {h entry item l r} (hs : a.seq h = some (l ++ entry :: r)) (hu : a.Unlinked item) :
      Step (.listAddAfter entry item) none (a.link h (l ++ entry :: item :: r) item)
  | listAddBefore {h entry item l r} (hs : a.seq h = some (l ++ entry :: r)) (hu : a.Unlinked item) :
      Step (.listAddBefore entry item) none (a.link h (l ++ item :: entry :: r) item)
  | listDelete {h item l r} (hs : a.seq h = some (l ++ item :: r)) :
      Step (.listDelete item) none (a.unlink h (l ++ r) item)
  | listRemoveHead {h item xs} (hs : a.seq h = some (item :: xs)) :
      Step (.listRemoveHead h) (some item) (a.unlink h xs item)
  | listRemoveHead_empty {h} (hs : a.seq h = some []) : Step (.listRemoveHead h) (some 0) a
  | listRemoveTail {h item xs} (hs : a.seq h = some (xs ++ [item])) :
      Step (.listRemoveTail h) (some item) (a.unlink h xs item)
  | listRemoveTail_empty {h} (hs : a.seq h = some []) : Step (.listRemoveTail h) (some 0) a

/-- Sequences of operations, with their results. -/
inductive Run : Lists → List ListOp → List (Option NodePtr) → Lists → Prop
  | nil {b} : Run b [] [] b
  | cons {b op result c ops results d} (hstep : b.Step op result c) (hrun : Run c ops results d) :
      Run b (op :: ops) (result :: results) d

end Lists

/-! ## Lists in memory -/

/-- The links of the nodes. -/
def Nodes.links (m : Nodes) : Links NodePtr where
  next x := (m x).next
  prev x := (m x).prev

/-- The nodes have the links of the lists, and no node is on two lists. -/
structure Represents (m : Nodes) (a : Lists) : Prop where
  circular : ∀ h xs, a.seq h = some xs → Circular m.links h xs
  disjoint : ∀ x h xs h' xs', a.seq h = some xs → a.seq h' = some xs' → x ∈ h :: xs → x ∈ h' :: xs' → h = h'
  not_null : ∀ h xs, a.seq h = some xs → 0 ∉ h :: xs
  deleted : ∀ x ∈ a.deleted, m x = ⟨0, 0⟩ ∧ ∀ h xs, a.seq h = some xs → x ∉ h :: xs

/-- What is found of the lists: whether they are empty, their lengths and their ends, that their links are inverse
to each other, and whether a node is on one. -/
structure Observes (m : Nodes) (a : Lists) : Prop where
  isEmpty : ∀ h xs, a.seq h = some xs → m.listIsEmpty h = xs.isEmpty
  length : ∀ h xs, a.seq h = some xs → ∃ cnt, m.ListLength h cnt ∧ cnt.toNat = xs.length
  peekHead : ∀ h xs, a.seq h = some xs → m.listPeekHead h = xs.headD 0
  peekTail : ∀ h xs, a.seq h = some xs → m.listPeekTail h = xs.getLastD 0
  inverse : ∀ h xs, a.seq h = some xs → ∀ x ∈ h :: xs, (m (m x).next).prev = x ∧ (m (m x).prev).next = x
  inList : ∀ h xs, a.seq h = some xs → ∀ x ∈ h :: xs, m.listInList x = true
  not_inList : ∀ x ∈ a.deleted, m.listInList x = false

/-- A call leaves the nodes alone that it does not name and that are on no list with one that it names, and their
sequences, where they are heads. -/
def Keeps (m : Nodes) (a : Lists) (op : ListOp) (m' : Nodes) (a' : Lists) : Prop :=
  ∀ y, y ∉ op.args → (∀ h xs, a.seq h = some xs → y ∈ h :: xs → ∀ x ∈ op.args, x ∉ h :: xs) →
    m' y = m y ∧ a'.seq y = a.seq y

/-! ## Writes -/

namespace Nodes

variable {m : Nodes} {list item x y v : NodePtr}

@[simp] theorem links_next : m.links.next x = (m x).next := rfl

@[simp] theorem links_prev : m.links.prev x = (m x).prev := rfl

@[simp] theorem setPrev_prev : (m.setPrev x v y).prev = Function.update m.links.prev x v y := by
  by_cases h : y = x <;> simp [setPrev, h]

@[simp] theorem setPrev_next : (m.setPrev x v y).next = (m y).next := by
  by_cases h : y = x <;> simp [setPrev, h]

@[simp] theorem setNext_next : (m.setNext x v y).next = Function.update m.links.next x v y := by
  by_cases h : y = x <;> simp [setNext, h]

@[simp] theorem setNext_prev : (m.setNext x v y).prev = (m y).prev := by
  by_cases h : y = x <;> simp [setNext, h]

theorem links_listInitialize : (m.listInitialize list).links =
    ⟨Function.update m.links.next list list, Function.update m.links.prev list list⟩ := by
  simp [links, listInitialize]

theorem links_listAddHead (h : item ≠ list) :
    (m.listAddHead list item).links = m.links.insertAfter list item := by
  simp [links, listAddHead, Links.insertAfter, Function.update_of_ne h.symm]

theorem links_listAddTail (h : item ≠ list) :
    (m.listAddTail list item).links = m.links.insertBefore list item := by
  simp [links, listAddTail, Links.insertBefore, Function.update_of_ne h.symm]

theorem links_listDelete : (m.listDelete item).links =
    ⟨Function.update (m.links.remove item).next item 0, Function.update (m.links.remove item).prev item 0⟩ := by
  -- the first write does not change `item->prev`, not even if it is to the node itself
  have hprev : Function.update m.links.prev (m item).next (m item).prev item = (m item).prev := by
    by_cases h : item = (m item).next
    · rw [← h, Function.update_self]
    · rw [Function.update_of_ne h, links_prev]
  simp only [links, listDelete, Links.remove] at hprev ⊢
  simp [links, hprev]

/-- The nodes are given by their links. -/
theorem eq_of_links {m' : Nodes} (hnext : m'.links.next y = m.links.next y)
    (hprev : m'.links.prev y = m.links.prev y) : m' y = m y := by
  cases h : m y
  cases h' : m' y
  simp_all

theorem listAddHead_of_ne (hi : item ≠ list) (hy : y ≠ item) (hl : y ≠ list) (hn : y ≠ (m list).next) :
    m.listAddHead list item y = m y := by
  apply eq_of_links
  · simp [links_listAddHead hi, Links.insertAfter, hy, hl]
  · simp [links_listAddHead hi, Links.insertAfter, hy, hn]

theorem listAddTail_of_ne (hi : item ≠ list) (hy : y ≠ item) (hl : y ≠ list) (hp : y ≠ (m list).prev) :
    m.listAddTail list item y = m y := by
  apply eq_of_links
  · simp [links_listAddTail hi, Links.insertBefore, hy, hp]
  · simp [links_listAddTail hi, Links.insertBefore, hy, hl]

theorem listDelete_of_ne (hy : y ≠ item) (hn : y ≠ (m item).next) (hp : y ≠ (m item).prev) :
    m.listDelete item y = m y := by
  apply eq_of_links
  · simp [links_listDelete, Links.remove, hy, hp]
  · simp [links_listDelete, Links.remove, hy, hn]

theorem listDelete_self : m.listDelete item item = ⟨0, 0⟩ := by
  have hcleared : ((fun _ => ⟨0, 0⟩ : Nodes)) item = ⟨0, 0⟩ := rfl
  rw [← hcleared]
  apply eq_of_links
  · simp [links_listDelete]
  · simp [links_listDelete]

theorem listInitialize_of_ne (hy : y ≠ list) : m.listInitialize list y = m y := by
  apply eq_of_links
  · simp [links_listInitialize, hy]
  · simp [links_listInitialize, hy]

end Nodes

/-! ## One list -/

section OneList

variable {m : Nodes} {h x : NodePtr} {xs : List NodePtr}

theorem ne_head (hc : Circular m.links h xs) (hx : x ∈ xs) : x ≠ h :=
  fun he => (List.nodup_cons.mp hc.nodup).1 (he ▸ hx)

theorem Nodes.listIsEmpty_eq (hc : Circular m.links h xs) : m.listIsEmpty h = xs.isEmpty := by
  have hnext : (m h).next = xs.headD h := hc.next_head
  cases xs with
  | nil => simp [Nodes.listIsEmpty, hnext]
  | cons x xs => simp [Nodes.listIsEmpty, hnext, ne_head hc List.mem_cons_self]

theorem Nodes.listPeekHead_eq (hc : Circular m.links h xs) : m.listPeekHead h = xs.headD 0 := by
  have hnext : (m h).next = xs.headD h := hc.next_head
  cases xs with
  | nil => simp [Nodes.listPeekHead, hnext]
  | cons x xs => simp [Nodes.listPeekHead, hnext, ne_head hc List.mem_cons_self]

theorem Nodes.listPeekTail_eq (hc : Circular m.links h xs) : m.listPeekTail h = xs.getLastD 0 := by
  have hprev : (m h).prev = xs.getLastD h := hc.prev_head
  rcases List.eq_nil_or_concat' xs with rfl | ⟨ys, x, rfl⟩
  · simp [Nodes.listPeekTail, hprev]
  · have hxh : x ≠ h := ne_head hc (by simp)
    rw [List.getLastD_concat] at hprev ⊢
    simp [Nodes.listPeekTail, hprev, hxh]

theorem Nodes.listRemoveHead_nil (hc : Circular m.links h []) : m.listRemoveHead h = (0, m) := by
  have hnext : (m h).next = h := hc.next_head
  simp [Nodes.listRemoveHead, hnext]

theorem Nodes.listRemoveHead_cons (hc : Circular m.links h (x :: xs)) :
    m.listRemoveHead h = (x, m.listDelete x) := by
  have hnext : (m h).next = x := hc.next_head
  simp [Nodes.listRemoveHead, hnext, ne_head hc List.mem_cons_self]

theorem Nodes.listRemoveTail_nil (hc : Circular m.links h []) : m.listRemoveTail h = (0, m) := by
  have hprev : (m h).prev = h := hc.prev_head
  simp [Nodes.listRemoveTail, hprev]

theorem Nodes.listRemoveTail_concat (hc : Circular m.links h (xs ++ [x])) :
    m.listRemoveTail h = (x, m.listDelete x) := by
  have hprev : (m h).prev = x := by simpa [List.getLastD_concat] using hc.prev_head
  have hxh : x ≠ h := ne_head hc (by simp)
  simp [Nodes.listRemoveTail, hprev, hxh]

/-- An element deleted from a list leaves the others in their order. -/
theorem circular_listDelete {l r : List NodePtr} (hc : Circular m.links h (l ++ x :: r)) :
    Circular (m.listDelete x).links h (l ++ r) := by
  have hout : x ∉ h :: (l ++ r) := by
    have hp : (h :: l ++ x :: r).Perm (x :: (h :: l ++ r)) := List.perm_middle
    exact (List.nodup_cons.mp (hp.nodup_iff.mp hc.nodup)).1
  refine hc.remove.congr fun y hy => ?_
  -- the node itself is cleared, and not on the list any more
  have hyx : y ≠ x := fun he => hout (he ▸ hy)
  simp [Nodes.links_listDelete, hyx]

/-- The loop of `list_length` counts the elements that are still to come. -/
theorem length_loop {l r : List NodePtr} {cnt : BitVec 16} (hc : Circular m.links h (l ++ r)) :
    Loop.Returns (m.listLengthTurn h) (r.headD h, cnt) (cnt + BitVec.ofNat 16 r.length) := by
  induction r generalizing l cnt with
  | nil =>
    have hturn : m.listLengthTurn h (h, cnt) = .inr cnt := by simp [Nodes.listLengthTurn]
    exact (Loop.returns_of_inr hturn).mpr (by simp)
  | cons y r ih =>
    have hyh : y ≠ h := ne_head hc (by simp)
    have hnext : (m y).next = r.headD h := hc.next_mid
    have hturn : m.listLengthTurn h (y, cnt) = .inl (r.headD h, cnt + 1) := by
      simp [Nodes.listLengthTurn, hyh, hnext]
    have hrest : Circular m.links h ((l ++ [y]) ++ r) := by simpa using hc
    have hcnt : cnt + 1 + BitVec.ofNat 16 r.length = cnt + BitVec.ofNat 16 (y :: r).length := by
      rw [List.length_cons, Nat.add_comm r.length, BitVec.ofNat_add, BitVec.add_assoc]
      rfl
    exact (Loop.returns_of_inl hturn).mpr (hcnt ▸ ih hrest)

/-- A list has less elements than there are pointers, so that its length is counted without overflow. -/
theorem length_lt (hnd : (h :: xs).Nodup) : xs.length < 2 ^ 16 := by
  have hmap : ((h :: xs).map BitVec.toNat).Nodup := hnd.map fun x y => BitVec.eq_of_toNat_eq
  have hsub : ((h :: xs).map BitVec.toNat).Subperm (List.range (2 ^ 16)) := by
    apply hmap.subperm
    intro n hn
    obtain ⟨x, -, rfl⟩ := List.mem_map.mp hn
    exact List.mem_range.mpr x.isLt
  have hle := hsub.length_le
  simp only [List.length_map, List.length_cons, List.length_range] at hle
  omega

theorem Nodes.exists_listLength (hc : Circular m.links h xs) :
    ∃ cnt, m.ListLength h cnt ∧ cnt.toNat = xs.length := by
  have hnext : (m h).next = xs.headD h := hc.next_head
  refine ⟨BitVec.ofNat 16 xs.length, ?_, ?_⟩
  · have hloop : Loop.Returns (m.listLengthTurn h) (xs.headD h, 0) (0 + BitVec.ofNat 16 xs.length) :=
      length_loop (l := []) hc
    rw [Nodes.ListLength, hnext]
    simpa using hloop
  · rw [BitVec.toNat_ofNat, Nat.mod_eq_of_lt (length_lt hc.nodup)]

end OneList

/-! ## One call -/

namespace Lists

variable {a : Lists} {h h' item : NodePtr} {xs ys zs : List NodePtr}

theorem seq_link : (a.link h ys item).seq h' = some zs ↔
    h' = h ∧ ys = zs ∨ h' ≠ h ∧ h' ≠ item ∧ a.seq h' = some zs := by
  by_cases hh : h' = h
  · subst hh
    simp [link]
  · by_cases hi : h' = item
    · subst hi
      simp [link, hh]
    · simp [link, hh, hi]

theorem seq_unlink : (a.unlink h ys item).seq h' = some zs ↔
    h' = h ∧ ys = zs ∨ h' ≠ h ∧ a.seq h' = some zs := by
  by_cases hh : h' = h
  · subst hh
    simp [unlink]
  · simp [unlink, hh]

/-- A node that can be added is not on the list that it is added to, nor on those that are left. -/
theorem Unlinked.not_mem (hu : a.Unlinked item) (hs : a.seq h = some xs) (hne : item ≠ h) : item ∉ h :: xs :=
  fun hmem => hne (hu.2 h xs hs hmem).1.symm

/-- Nor is it the head of a list with elements. -/
theorem Unlinked.ne_head (hu : a.Unlinked item) (hs : a.seq h = some xs) (hxs : xs ≠ []) : item ≠ h := by
  rintro rfl
  exact hxs (hu.2 item xs hs List.mem_cons_self).2

end Lists

namespace Represents

variable {m m' : Nodes} {a a' : Lists} {op : ListOp} {h item x : NodePtr} {xs ys : List NodePtr}

/-- What is enough if one list becomes `ys`: the others share no node with it, and keep theirs. -/
theorem of_change (hr : Represents m a) (hc : Circular m'.links h ys) (hnull : 0 ∉ h :: ys)
    (hseq : ∀ h' zs, a'.seq h' = some zs →
      h' = h ∧ ys = zs ∨ a.seq h' = some zs ∧ ∀ y ∈ h' :: zs, y ∉ h :: ys ∧ m' y = m y)
    (hdel : ∀ x ∈ a'.deleted, m' x = ⟨0, 0⟩ ∧ ∀ h' zs, a'.seq h' = some zs → x ∉ h' :: zs) :
    Represents m' a' where
  circular h' zs hs := by
    rcases hseq h' zs hs with ⟨rfl, rfl⟩ | ⟨hs', hkeep⟩
    · exact hc
    · apply (hr.circular h' zs hs').congr
      intro y hy
      simp [(hkeep y hy).2]
  disjoint x h₁ zs₁ h₂ zs₂ hs₁ hs₂ hx₁ hx₂ := by
    rcases hseq h₁ zs₁ hs₁ with ⟨rfl, rfl⟩ | ⟨hs₁', hkeep₁⟩
    · rcases hseq h₂ zs₂ hs₂ with ⟨rfl, rfl⟩ | ⟨-, hkeep₂⟩
      · rfl
      · exact absurd hx₁ (hkeep₂ x hx₂).1
    · rcases hseq h₂ zs₂ hs₂ with ⟨rfl, rfl⟩ | ⟨hs₂', -⟩
      · exact absurd hx₂ (hkeep₁ x hx₁).1
      · exact hr.disjoint x h₁ zs₁ h₂ zs₂ hs₁' hs₂' hx₁ hx₂
  not_null h' zs hs := by
    rcases hseq h' zs hs with ⟨rfl, rfl⟩ | ⟨hs', -⟩
    · exact hnull
    · exact hr.not_null h' zs hs'
  deleted := hdel

/-- **A node becomes part of a list**, and the others stay as they are. -/
theorem link (hr : Represents m a) (hs : a.seq h = some xs) (hu : a.Unlinked item) (hne : item ≠ h)
    (hperm : ys.Perm (item :: xs)) (hc : Circular m'.links h ys)
    (hframe : ∀ y, y ≠ item → y ∉ h :: xs → m' y = m y) : Represents m' (a.link h ys item) := by
  have hmem : ∀ y, y ∈ h :: ys → y = item ∨ y ∈ h :: xs := by
    intro y hy
    rcases List.mem_cons.mp hy with rfl | hy
    · exact .inr List.mem_cons_self
    · rcases List.mem_cons.mp (hperm.mem_iff.mp hy) with rfl | hy
      · exact .inl rfl
      · exact .inr (List.mem_cons_of_mem h hy)
  refine hr.of_change hc ?_ ?_ ?_
  · intro hzero
    rcases hmem 0 hzero with hzero | hzero
    · exact hu.1 hzero.symm
    · exact hr.not_null h xs hs hzero
  · intro h' zs hs'
    rcases Lists.seq_link.mp hs' with hh | ⟨hh, hi, hs'⟩
    · exact .inl hh
    · refine .inr ⟨hs', fun y hy => ?_⟩
      have hyi : y ≠ item := fun he => hu.not_mem hs' hi.symm (he ▸ hy)
      have hyh : y ∉ h :: xs := fun hy' => hh (hr.disjoint y h' zs h xs hs' hs hy hy')
      exact ⟨fun hy' => (hmem y hy').elim hyi hyh, hframe y hyi hyh⟩
  · rintro x ⟨hx, hxi⟩
    obtain ⟨hzero, hoff⟩ := hr.deleted x hx
    refine ⟨(hframe x hxi (hoff h xs hs)).trans hzero, fun h' zs hs' hx' => ?_⟩
    rcases Lists.seq_link.mp hs' with ⟨rfl, rfl⟩ | ⟨-, -, hs'⟩
    · exact (hmem x hx').elim hxi (hoff _ xs hs)
    · exact hoff h' zs hs' hx'

/-- **A node is taken out of a list**, and the others stay as they are. -/
theorem unlink (hr : Represents m a) (hs : a.seq h = some xs) (hperm : xs.Perm (item :: ys))
    (hc : Circular m'.links h ys) (hzero : m' item = ⟨0, 0⟩) (hframe : ∀ y, y ∉ h :: xs → m' y = m y) :
    Represents m' (a.unlink h ys item) := by
  have hmem : ∀ y, y ∈ h :: ys → y ∈ h :: xs := by
    intro y hy
    rcases List.mem_cons.mp hy with rfl | hy
    · exact List.mem_cons_self
    · exact List.mem_cons_of_mem h (hperm.mem_iff.mpr (List.mem_cons_of_mem item hy))
  have hitem : item ∈ h :: xs := List.mem_cons_of_mem h (hperm.mem_iff.mpr List.mem_cons_self)
  have hout : item ∉ h :: ys := by
    have hnd : (h :: item :: ys).Nodup := (hperm.cons h).nodup_iff.mp (hr.circular h xs hs).nodup
    simp only [List.nodup_cons, List.mem_cons, not_or] at hnd ⊢
    exact ⟨Ne.symm hnd.1.1, hnd.2.1⟩
  refine hr.of_change hc (fun h0 => hr.not_null h xs hs (hmem 0 h0)) ?_ ?_
  · intro h' zs hs'
    rcases Lists.seq_unlink.mp hs' with hh | ⟨hh, hs'⟩
    · exact .inl hh
    · refine .inr ⟨hs', fun y hy => ?_⟩
      have hyh : y ∉ h :: xs := fun hy' => hh (hr.disjoint y h' zs h xs hs' hs hy hy')
      exact ⟨fun hy' => hyh (hmem y hy'), hframe y hyh⟩
  · rintro x (rfl | hx)
    · refine ⟨hzero, fun h' zs hs' hx' => ?_⟩
      rcases Lists.seq_unlink.mp hs' with ⟨rfl, rfl⟩ | ⟨hh, hs'⟩
      · exact hout hx'
      · exact hh (hr.disjoint x h' zs h xs hs' hs hx' hitem)
    · obtain ⟨hzero', hoff⟩ := hr.deleted x hx
      refine ⟨(hframe x (hoff h xs hs)).trans hzero', fun h' zs hs' hx' => ?_⟩
      rcases Lists.seq_unlink.mp hs' with ⟨rfl, rfl⟩ | ⟨-, hs'⟩
      · exact hoff _ xs hs (hmem x hx')
      · exact hoff h' zs hs' hx'

/-- What a call writes to is named by it, or on a list with what it names. -/
theorem keeps_of_frame (hs : a.seq h = some xs) (hx : x ∈ op.args) (hxs : x ∈ h :: xs)
    (hi : item ∈ op.args ∨ item ∈ h :: xs) (hframe : ∀ y, y ≠ item → y ∉ h :: xs → m' y = m y)
    (hseq : ∀ y, y ≠ item → y ≠ h → a'.seq y = a.seq y) : Keeps m a op m' a' := by
  intro y hy hoff
  have hyh : y ∉ h :: xs := fun hmem => hoff h xs hs hmem x hx hxs
  have hyi : y ≠ item := by
    rintro rfl
    exact hi.elim hy hyh
  exact ⟨hframe y hyi hyh, hseq y hyi fun he => hyh (he ▸ List.mem_cons_self)⟩

/-- `list_add_head` and `list_add_after`, behind the head or an element. -/
theorem addAfter (hr : Represents m a) (hs : a.seq h = some xs) (hu : a.Unlinked item) (hne : item ≠ h)
    (hx : x ∈ h :: xs) (hperm : ys.Perm (item :: xs)) (hc : Circular (m.links.insertAfter x item) h ys)
    (hargs : op.args = [x, item]) :
    Represents (m.listAddHead x item) (a.link h ys item) ∧
      Keeps m a op (m.listAddHead x item) (a.link h ys item) := by
  have hxi : item ≠ x := fun he => hu.not_mem hs hne (he ▸ hx)
  have hframe : ∀ y, y ≠ item → y ∉ h :: xs → m.listAddHead x item y = m y := by
    intro y hyi hyh
    apply Nodes.listAddHead_of_ne hxi hyi
    · exact fun he => hyh (he ▸ hx)
    · exact fun he => hyh (he ▸ (hr.circular h xs hs).next_mem hx)
  constructor
  · exact hr.link hs hu hne hperm (Nodes.links_listAddHead hxi ▸ hc) hframe
  · apply keeps_of_frame hs (by simp [hargs]) hx (.inl (by simp [hargs])) hframe
    intro y hyi hyh
    simp [Lists.link, hyi, hyh]

/-- `list_add_tail` and `list_add_before`, before the head or an element. -/
theorem addBefore (hr : Represents m a) (hs : a.seq h = some xs) (hu : a.Unlinked item) (hne : item ≠ h)
    (hx : x ∈ h :: xs) (hperm : ys.Perm (item :: xs)) (hc : Circular (m.links.insertBefore x item) h ys)
    (hargs : op.args = [x, item]) :
    Represents (m.listAddTail x item) (a.link h ys item) ∧
      Keeps m a op (m.listAddTail x item) (a.link h ys item) := by
  have hxi : item ≠ x := fun he => hu.not_mem hs hne (he ▸ hx)
  have hframe : ∀ y, y ≠ item → y ∉ h :: xs → m.listAddTail x item y = m y := by
    intro y hyi hyh
    apply Nodes.listAddTail_of_ne hxi hyi
    · exact fun he => hyh (he ▸ hx)
    · exact fun he => hyh (he ▸ (hr.circular h xs hs).prev_mem hx)
  constructor
  · exact hr.link hs hu hne hperm (Nodes.links_listAddTail hxi ▸ hc) hframe
  · apply keeps_of_frame hs (by simp [hargs]) hx (.inl (by simp [hargs])) hframe
    intro y hyi hyh
    simp [Lists.link, hyi, hyh]

/-- `list_delete`, of an element. -/
theorem delete {l r : List NodePtr} (hr : Represents m a) (hs : a.seq h = some (l ++ item :: r))
    (hx : x ∈ op.args) (hxs : x ∈ h :: (l ++ item :: r)) :
    Represents (m.listDelete item) (a.unlink h (l ++ r) item) ∧
      Keeps m a op (m.listDelete item) (a.unlink h (l ++ r) item) := by
  have hcirc := hr.circular h _ hs
  have hmem : item ∈ h :: (l ++ item :: r) := by simp
  have hframe : ∀ y, y ∉ h :: (l ++ item :: r) → m.listDelete item y = m y := by
    intro y hy
    apply Nodes.listDelete_of_ne
    · exact fun he => hy (he ▸ hmem)
    · exact fun he => hy (he ▸ hcirc.next_mem hmem)
    · exact fun he => hy (he ▸ hcirc.prev_mem hmem)
  constructor
  · exact hr.unlink hs List.perm_middle (circular_listDelete hcirc) Nodes.listDelete_self hframe
  · apply keeps_of_frame hs hx hxs (.inr hmem) fun y _ hy => hframe y hy
    intro y _ hyh
    simp [Lists.unlink, hyh]

/-- `list_initialize`, of a node that is no element: it becomes the head of an empty list. -/
theorem makeEmpty (hr : Represents m a) (hnull : h ≠ 0) (hfree : ∀ h' xs, a.seq h' = some xs → h ∉ xs) :
    Represents (m.listInitialize h) (a.link h [] h) ∧
      Keeps m a (.listInitialize h) (m.listInitialize h) (a.link h [] h) := by
  have hcirc : Circular (m.listInitialize h).links h [] := by
    apply circular_nil.mpr
    simp [Nodes.links_listInitialize]
  constructor
  · refine hr.of_change hcirc (by simpa using hnull.symm) ?_ ?_
    · intro h' zs hs'
      rcases Lists.seq_link.mp hs' with hh | ⟨hh, -, hold⟩
      · exact .inl hh
      · refine .inr ⟨hold, fun y hy => ?_⟩
        have hyh : y ≠ h := by
          rintro rfl
          rcases List.mem_cons.mp hy with rfl | hy
          · exact hh rfl
          · exact hfree h' zs hold hy
        exact ⟨by simpa using hyh, Nodes.listInitialize_of_ne hyh⟩
    · rintro x ⟨hx, hxh⟩
      obtain ⟨hzero, hoff⟩ := hr.deleted x hx
      refine ⟨(Nodes.listInitialize_of_ne hxh).trans hzero, fun h' zs hs' hx' => ?_⟩
      rcases Lists.seq_link.mp hs' with ⟨rfl, rfl⟩ | ⟨-, -, hs'⟩
      · exact hxh (List.mem_singleton.mp hx')
      · exact hoff h' zs hs' hx'
  · intro y hy _
    have hyh : y ≠ h := by simpa [ListOp.args] using hy
    exact ⟨Nodes.listInitialize_of_ne hyh, by simp [Lists.link, hyh]⟩

/-- **A call does what the operation on the sequences does.** -/
theorem step (hr : Represents m a) {result : Option NodePtr} (hstep : a.Step op result a') :
    (m.exec op).1 = result ∧ Represents (m.exec op).2 a' ∧ Keeps m a op (m.exec op).2 a' := by
  cases hstep with
  | @listInitialize h hnull hfree => exact ⟨rfl, hr.makeEmpty hnull hfree⟩
  | @listAddHead h item xs hs hu hne =>
    have hcirc := (hr.circular h xs hs).insertAfter_head (hu.not_mem hs hne)
    exact ⟨rfl, hr.addAfter hs hu hne List.mem_cons_self (List.Perm.refl _) hcirc rfl⟩
  | @listAddTail h item xs hs hu hne =>
    have hcirc := (hr.circular h xs hs).insertBefore_head (hu.not_mem hs hne)
    exact ⟨rfl, hr.addBefore hs hu hne List.mem_cons_self (List.perm_append_singleton item xs) hcirc rfl⟩
  | @listAddAfter h entry item l r hs hu =>
    have hne : item ≠ h := hu.ne_head hs (by simp)
    have hcirc := (hr.circular h _ hs).insertAfter (hu.not_mem hs hne)
    have hperm : (l ++ entry :: item :: r).Perm (item :: (l ++ entry :: r)) := by
      have hp : (l ++ [entry] ++ item :: r).Perm (item :: (l ++ [entry] ++ r)) := List.perm_middle
      simpa using hp
    exact ⟨rfl, hr.addAfter hs hu hne (by simp) hperm hcirc rfl⟩
  | @listAddBefore h entry item l r hs hu =>
    have hne : item ≠ h := hu.ne_head hs (by simp)
    have hcirc := (hr.circular h _ hs).insertBefore (hu.not_mem hs hne)
    exact ⟨rfl, hr.addBefore hs hu hne (by simp) List.perm_middle hcirc rfl⟩
  | @listDelete h item l r hs => exact ⟨rfl, hr.delete hs List.mem_cons_self (by simp)⟩
  | @listRemoveHead h item xs hs =>
    rw [Nodes.exec, Nodes.listRemoveHead_cons (hr.circular h _ hs)]
    exact ⟨rfl, hr.delete (l := []) hs List.mem_cons_self List.mem_cons_self⟩
  | @listRemoveHead_empty h hs =>
    rw [Nodes.exec, Nodes.listRemoveHead_nil (hr.circular h _ hs)]
    exact ⟨rfl, hr, fun y _ _ => ⟨rfl, rfl⟩⟩
  | @listRemoveTail h item xs hs =>
    rw [Nodes.exec, Nodes.listRemoveTail_concat (hr.circular h _ hs)]
    have hdel : Represents (m.listDelete item) (a.unlink h (xs ++ []) item) ∧
        Keeps m a (.listRemoveTail h) (m.listDelete item) (a.unlink h (xs ++ []) item) :=
      hr.delete hs List.mem_cons_self List.mem_cons_self
    rw [List.append_nil] at hdel
    exact ⟨rfl, hdel⟩
  | @listRemoveTail_empty h hs =>
    rw [Nodes.exec, Nodes.listRemoveTail_nil (hr.circular h _ hs)]
    exact ⟨rfl, hr, fun y _ _ => ⟨rfl, rfl⟩⟩

/-- **What is found of the lists** is what the sequences are. -/
theorem observes (hr : Represents m a) : Observes m a where
  isEmpty h xs hs := Nodes.listIsEmpty_eq (hr.circular h xs hs)
  length h xs hs := Nodes.exists_listLength (hr.circular h xs hs)
  peekHead h xs hs := Nodes.listPeekHead_eq (hr.circular h xs hs)
  peekTail h xs hs := Nodes.listPeekTail_eq (hr.circular h xs hs)
  inverse h xs hs x hx := (hr.circular h xs hs).inverse hx
  inList h xs hs x hx := by
    -- the node behind it is on the list, so it is not null
    have hnext : (m x).next ≠ 0 := fun he => hr.not_null h xs hs (he ▸ (hr.circular h xs hs).next_mem hx)
    rw [Nodes.listInList, if_neg fun hnull => hnext hnull.2]
  not_inList x hx := by simp [Nodes.listInList, (hr.deleted x hx).1]

/-- The lists after a sequence of calls. -/
theorem run (hr : Represents m a) {ops : List ListOp} {results : List (Option NodePtr)}
    (hrun : Lists.Run a ops results a') :
    Represents (m.execs ops) a' ∧ StepSystem.trace Nodes.exec m ops = results := by
  induction hrun generalizing m with
  | nil => exact ⟨hr, rfl⟩
  | cons hstep _ ih =>
    obtain ⟨hres, hr', -⟩ := hr.step hstep
    obtain ⟨hlast, hrest⟩ := ih hr'
    exact ⟨hlast, by rw [StepSystem.trace, hres, hrest]⟩

end Represents

/-- **Intrusive lists implement sequences.** After every sequence of calls the links are those of the sequences that
the operations give, with their results. All that is found of the lists is what is true of the sequences, and a
further call changes nothing else. -/
theorem lists_implement_sequences {m : Nodes} {a b : Lists} (hr : Represents m a) {ops : List ListOp}
    {results : List (Option NodePtr)} (hrun : Lists.Run a ops results b) :
    Represents (m.execs ops) b ∧ Observes (m.execs ops) b ∧ StepSystem.trace Nodes.exec m ops = results ∧
      ∀ op result c, b.Step op result c →
        ((m.execs ops).exec op).1 = result ∧ Represents ((m.execs ops).exec op).2 c ∧
          Keeps (m.execs ops) b op ((m.execs ops).exec op).2 c := by
  obtain ⟨hlast, htrace⟩ := hr.run hrun
  exact ⟨hlast, hlast.observes, htrace, fun op result c hstep => hlast.step hstep⟩

/-- Two nodes are added to a list, and the first one is removed again. -/
theorem lists_implement_sequences_two :
    StepSystem.trace Nodes.exec (fun _ => ⟨0, 0⟩)
      [.listInitialize 2, .listAddTail 2 4, .listAddTail 2 6, .listRemoveHead 2] =
        [none, none, none, some 4] := by
  let a : Lists := ⟨fun _ => none, ∅⟩
  have hr : Represents (fun _ => ⟨0, 0⟩) a := by constructor <;> simp [a]
  have hunlinked : ∀ {ys : List NodePtr} {b : Lists} {x y : NodePtr}, x ≠ 0 → (∀ h, b.seq h = none ∨ h = 2) →
      x ∉ (2 :: ys : List NodePtr) → (b.link 2 ys y).Unlinked x := by
    intro ys b x y hx hb hmem
    refine ⟨hx, fun h xs hs hxs => ?_⟩
    rcases Lists.seq_link.mp hs with ⟨rfl, rfl⟩ | ⟨hne, -, hold⟩
    · exact absurd hxs hmem
    · rcases hb h with hb | rfl
      · exact absurd (hb.symm.trans hold) (by simp)
      · exact absurd rfl hne
  let b := a.link 2 [] 2
  let c := b.link 2 [4] 4
  let d := c.link 2 [4, 6] 6
  have hb : ∀ h, b.seq h = none ∨ h = 2 := by
    intro h
    by_cases hh : h = 2
    · exact .inr hh
    · exact .inl ((Function.update_of_ne hh _ _).trans (Function.update_of_ne hh _ _))
  have hinit : a.Step (.listInitialize 2) none b := .listInitialize (by decide) fun h' xs hs => absurd hs (by simp [a])
  have hempty : b.seq 2 = some [] := by simp [b, Lists.link]
  have hadd : b.Step (.listAddTail 2 4) none c :=
    .listAddTail hempty (hunlinked (by decide) (fun _ => .inl rfl) (by decide)) (by decide)
  have hone : c.seq 2 = some [4] := by simp [c, Lists.link]
  have hadd' : c.Step (.listAddTail 2 6) none d :=
    .listAddTail hone (hunlinked (by decide) hb (by decide)) (by decide)
  have hremove : d.Step (.listRemoveHead 2) (some 4) (d.unlink 2 [6] 4) :=
    .listRemoveHead (by simp [d, Lists.link])
  have hrun := Lists.Run.cons hinit (.cons hadd (.cons hadd' (.cons hremove .nil)))
  exact (lists_implement_sequences hr hrun).2.2.1

end I80k.Kernel

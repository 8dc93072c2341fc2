import Mathlib

/-!
# Circular lists in memory

The nodes of a circular list are linked both ways, from its head through its elements and back to the head.
The list can be looked at from any of its nodes: what is done behind the head of a list can be done behind
each of its elements.

A list depends on the links of its own nodes only. A node that is not on it can be linked in and taken out,
whatever its own links were.

## Main definitions

* `Links`: the links of the nodes of a memory
* `Circular L h xs`: from the head `h`, the links lead through the elements `xs` and back, in both directions
* `Links.insertAfter`, `Links.insertBefore`, `Links.remove`: the writes of one change

## Main results

* `circular_rotate`: a list looked at from one of its elements
* `Circular.insertAfter`, `Circular.insertBefore`, `Circular.remove`: what a change does to a list
* `Circular.inverse`: the links are inverse to each other
-/

namespace CircularLinks

/-- The links of the nodes of a memory. -/
structure Links (N : Type) where
  next : N → N
  prev : N → N

variable {N : Type}

/-- The nodes are linked to each other, in this order. -/
def Links.Adjacent (L : Links N) (a b : N) : Prop := L.next a = b ∧ L.prev b = a

/-- From `h`, the links lead through `xs` and back to `h`. -/
structure Circular (L : Links N) (h : N) (xs : List N) : Prop where
  nodup : (h :: xs).Nodup
  chain : (h :: xs ++ [h]).IsChain L.Adjacent

section

variable {L L' : Links N} {h a x : N} {xs l r : List N}

theorem circular_nil : Circular L h [] ↔ L.next h = h ∧ L.prev h = h := by
  have hpair : [h, h].IsChain L.Adjacent ↔ L.next h = h ∧ L.prev h = h := List.isChain_pair
  constructor
  · intro hc
    exact hpair.mp hc.chain
  · intro hc
    exact ⟨List.nodup_singleton h, hpair.mpr hc⟩

/-- Nodes stay linked if each keeps its link to its neighbour. -/
theorem chain_congr (hl : l.IsChain L.Adjacent) (hnext : ∀ a ∈ l.dropLast, L'.next a = L.next a)
    (hprev : ∀ b ∈ l.tail, L'.prev b = L.prev b) : l.IsChain L'.Adjacent := by
  induction l with
  | nil => exact List.isChain_nil
  | cons a l ih =>
    cases l with
    | nil => exact List.isChain_singleton a
    | cons b l =>
      obtain ⟨hab, hbl⟩ := List.isChain_cons_cons.mp hl
      refine List.isChain_cons_cons.mpr ⟨⟨?_, ?_⟩, ?_⟩
      · exact (hnext a (by simp)).trans hab.1
      · exact (hprev b (by simp)).trans hab.2
      · apply ih hbl
        · exact fun c hc => hnext c (by simp [List.dropLast_cons_of_ne_nil, hc])
        · exact fun c hc => hprev c (List.mem_cons_of_mem b hc)

theorem Circular.link_cons (hc : Circular L h (x :: xs)) :
    L.Adjacent h x ∧ (x :: xs ++ [h]).IsChain L.Adjacent :=
  List.isChain_cons_cons.mp hc.chain

/-- A list depends on the links of its own nodes only. -/
theorem Circular.congr (hc : Circular L h xs)
    (he : ∀ a ∈ h :: xs, L'.next a = L.next a ∧ L'.prev a = L.prev a) : Circular L' h xs := by
  refine ⟨hc.nodup, chain_congr hc.chain (fun a ha => (he a ?_).1) fun b hb => (he b ?_).2⟩
  · rwa [List.dropLast_concat] at ha
  · simpa [or_comm] using hb

/-- **A list looked at from one of its elements.** -/
theorem circular_rotate : Circular L h (l ++ x :: r) ↔ Circular L x (r ++ h :: l) := by
  have hperm : (h :: l ++ x :: r).Perm (x :: r ++ h :: l) := List.perm_append_comm
  have hchain : (h :: (l ++ x :: r) ++ [h]).IsChain L.Adjacent ↔
      (x :: (r ++ h :: l) ++ [x]).IsChain L.Adjacent := by
    have hh : (h :: l ++ x :: (r ++ [h])).IsChain L.Adjacent ↔
        (h :: l ++ [x]).IsChain L.Adjacent ∧ (x :: (r ++ [h])).IsChain L.Adjacent := List.isChain_split
    have hx : (x :: r ++ h :: (l ++ [x])).IsChain L.Adjacent ↔
        (x :: r ++ [h]).IsChain L.Adjacent ∧ (h :: (l ++ [x])).IsChain L.Adjacent := List.isChain_split
    simp only [List.cons_append, List.append_assoc] at hh hx ⊢
    rw [hh, hx, and_comm]
  constructor
  · intro hc
    exact ⟨hperm.nodup_iff.mp hc.nodup, hchain.mp hc.chain⟩
  · intro hc
    exact ⟨hperm.nodup_iff.mpr hc.nodup, hchain.mpr hc.chain⟩

theorem Circular.next_head (hc : Circular L h xs) : L.next h = xs.headD h := by
  cases xs with
  | nil => exact (circular_nil.mp hc).1
  | cons y ys => exact hc.link_cons.1.1

/-- What follows an element is the first of those behind it, or else the head. -/
theorem Circular.next_mid (hc : Circular L h (l ++ x :: r)) : L.next x = r.headD h := by
  have hx := (circular_rotate.mp hc).next_head
  cases r with
  | nil => simpa using hx
  | cons y ys => simpa using hx

theorem Circular.prev_head (hc : Circular L h xs) : L.prev h = xs.getLastD h := by
  rcases List.eq_nil_or_concat' xs with rfl | ⟨ys, y, rfl⟩
  · exact (circular_nil.mp hc).2
  · have hlast : (h :: ys ++ [y, h]).IsChain L.Adjacent := by simpa using hc.chain
    rw [List.getLastD_concat]
    exact (List.isChain_append_cons_cons.mp hlast).2.1.2

theorem Circular.next_last (hc : Circular L h (l ++ r)) : L.next (l.getLastD h) = r.headD h := by
  rcases List.eq_nil_or_concat' l with rfl | ⟨p, y, rfl⟩
  · exact hc.next_head
  · rw [List.append_assoc] at hc
    rw [List.getLastD_concat]
    exact hc.next_mid

/-- The elements of a list are determined by its links. -/
theorem Circular.unique {ys : List N} (hx : Circular L h xs) (hy : Circular L h ys) : xs = ys := by
  have hne : ∀ {l y r}, Circular L h (l ++ y :: r) → y ≠ h :=
    fun hc he => (List.nodup_cons.mp hc.nodup).1 (by simp [he])
  -- behind a common beginning the lists go on alike
  have hrest : ∀ r l r', Circular L h (l ++ r) → Circular L h (l ++ r') → r = r' := by
    intro r
    induction r with
    | nil =>
      intro l r' hc hc'
      cases r' with
      | nil => rfl
      | cons y r' => exact absurd (hc'.next_last.symm.trans hc.next_last) (hne hc')
    | cons x r ih =>
      intro l r' hc hc'
      cases r' with
      | nil => exact absurd (hc.next_last.symm.trans hc'.next_last) (hne hc)
      | cons y r' =>
        obtain rfl : x = y := hc.next_last.symm.trans hc'.next_last
        rw [ih (l ++ [x]) r' (by simpa using hc) (by simpa using hc')]
  exact hrest xs [] ys hx hy

theorem Circular.next_mem (hc : Circular L h xs) (ha : a ∈ h :: xs) : L.next a ∈ h :: xs := by
  rcases List.mem_cons.mp ha with rfl | ha
  · rw [hc.next_head]
    cases xs <;> simp
  · obtain ⟨l, r, rfl⟩ := List.append_of_mem ha
    rw [hc.next_mid]
    cases r <;> simp

theorem Circular.prev_mem (hc : Circular L h xs) (ha : a ∈ h :: xs) : L.prev a ∈ h :: xs := by
  have hhead : ∀ {b ys}, Circular L b ys → L.prev b ∈ b :: ys := by
    intro b ys hc
    rw [hc.prev_head]
    rcases List.eq_nil_or_concat' ys with rfl | ⟨zs, z, rfl⟩ <;> simp
  rcases List.mem_cons.mp ha with rfl | ha
  · exact hhead hc
  · obtain ⟨l, r, rfl⟩ := List.append_of_mem ha
    have hmem := hhead (circular_rotate.mp hc)
    simp only [List.mem_cons, List.mem_append] at hmem ⊢
    tauto

/-- **The links of a list are inverse to each other.** -/
theorem Circular.inverse (hc : Circular L h xs) (ha : a ∈ h :: xs) :
    L.prev (L.next a) = a ∧ L.next (L.prev a) = a := by
  have hhead : ∀ {b ys}, Circular L b ys → L.prev (L.next b) = b ∧ L.next (L.prev b) = b := by
    intro b ys hc
    constructor
    · cases ys with
      | nil => rw [(circular_nil.mp hc).1, (circular_nil.mp hc).2]
      | cons y ys =>
        have hby := hc.link_cons.1
        rw [hby.1, hby.2]
    · rw [hc.prev_head]
      rcases List.eq_nil_or_concat' ys with rfl | ⟨zs, z, rfl⟩
      · exact (circular_nil.mp hc).1
      · rw [List.getLastD_concat, hc.next_mid, List.headD_nil]
  rcases List.mem_cons.mp ha with rfl | ha
  · exact hhead hc
  · obtain ⟨l, r, rfl⟩ := List.append_of_mem ha
    exact hhead (circular_rotate.mp hc)

end

/-! ## Changes -/

section

variable [DecidableEq N] (L : Links N)

/-- `x` is linked in behind `a`. -/
def Links.insertAfter (a x : N) : Links N where
  next := Function.update (Function.update L.next x (L.next a)) a x
  prev := Function.update (Function.update L.prev x a) (L.next a) x

/-- `x` is linked in before `a`. -/
def Links.insertBefore (a x : N) : Links N where
  next := Function.update (Function.update L.next x a) (L.prev a) x
  prev := Function.update (Function.update L.prev x (L.prev a)) a x

/-- The neighbours of `x` are linked to each other. -/
def Links.remove (x : N) : Links N where
  next := Function.update L.next (L.prev x) (L.next x)
  prev := Function.update L.prev (L.next x) (L.prev x)

variable {L} {h a x : N} {xs l r : List N}

/-- Before a node is behind the one before it. -/
theorem Links.insertBefore_eq (ha : L.next (L.prev a) = a) :
    L.insertBefore a x = L.insertAfter (L.prev a) x := by
  rw [insertBefore, insertAfter, ha]

theorem Circular.insertAfter_head (hc : Circular L h xs) (hx : x ∉ h :: xs) :
    Circular (L.insertAfter h x) h (x :: xs) := by
  obtain ⟨hxh, hxs⟩ : x ≠ h ∧ x ∉ xs := by simpa using hx
  obtain ⟨hh, hnodup⟩ := List.nodup_cons.mp hc.nodup
  have hnd : (h :: x :: xs).Nodup := by simp [hxh.symm, hxs, hh, hnodup]
  cases xs with
  | nil =>
    -- the head is its own neighbour, on both sides
    have hnext : L.next h = h := (circular_nil.mp hc).1
    refine ⟨hnd, List.isChain_cons_cons.mpr ⟨⟨?_, ?_⟩, List.isChain_cons_cons.mpr ⟨⟨?_, ?_⟩, ?_⟩⟩⟩
    · simp [Links.insertAfter]
    · simp [Links.insertAfter, hnext, hxh]
    · simp [Links.insertAfter, hnext, hxh]
    · simp [Links.insertAfter, hnext]
    · exact List.isChain_singleton h
  | cons y ys =>
    obtain ⟨⟨hnext, -⟩, hrest⟩ := hc.link_cons
    have hxy : x ≠ y := fun he => hxs (he ▸ List.mem_cons_self)
    refine ⟨hnd, List.isChain_cons_cons.mpr ⟨⟨?_, ?_⟩, List.isChain_cons_cons.mpr ⟨⟨?_, ?_⟩, ?_⟩⟩⟩
    · simp [Links.insertAfter]
    · simp [Links.insertAfter, hnext, hxy]
    · simp [Links.insertAfter, hnext, hxh]
    · simp [Links.insertAfter, hnext]
    · apply chain_congr hrest
      · intro b hb
        have hbm : b ∈ y :: ys := by rwa [List.dropLast_concat] at hb
        have hbx : b ≠ x := fun he => hxs (he ▸ hbm)
        have hbh : b ≠ h := fun he => hh (he ▸ hbm)
        simp [Links.insertAfter, hbx, hbh]
      · intro b hb
        have hbm : b ∈ ys ∨ b = h := by simpa using hb
        have hbx : b ≠ x := by
          rintro rfl
          rcases hbm with hbm | rfl
          · exact hxs (List.mem_cons_of_mem y hbm)
          · exact hxh rfl
        have hby : b ≠ y := by
          rintro rfl
          rcases hbm with hbm | rfl
          · exact (List.nodup_cons.mp hnodup).1 hbm
          · exact hh List.mem_cons_self
        simp [Links.insertAfter, hnext, hbx, hby]

/-- **A node linked in behind an element** comes behind it. -/
theorem Circular.insertAfter (hc : Circular L h (l ++ a :: r)) (hx : x ∉ h :: (l ++ a :: r)) :
    Circular (L.insertAfter a x) h (l ++ a :: x :: r) := by
  have ha := circular_rotate.mp hc
  have hxa : x ∉ a :: (r ++ h :: l) := by
    simp only [List.mem_cons, List.mem_append] at hx ⊢
    tauto
  exact circular_rotate.mpr (ha.insertAfter_head hxa)

theorem Circular.insertBefore_head (hc : Circular L h xs) (hx : x ∉ h :: xs) :
    Circular (L.insertBefore h x) h (xs ++ [x]) := by
  rw [Links.insertBefore_eq (hc.inverse List.mem_cons_self).2, hc.prev_head]
  rcases List.eq_nil_or_concat' xs with rfl | ⟨ys, y, rfl⟩
  · exact hc.insertAfter_head hx
  · rw [List.getLastD_concat, List.append_assoc]
    exact hc.insertAfter hx

/-- **A node linked in before an element** comes before it. -/
theorem Circular.insertBefore (hc : Circular L h (l ++ a :: r)) (hx : x ∉ h :: (l ++ a :: r)) :
    Circular (L.insertBefore a x) h (l ++ x :: a :: r) := by
  have ha := circular_rotate.mp hc
  have hxa : x ∉ a :: (r ++ h :: l) := by
    simp only [List.mem_cons, List.mem_append] at hx ⊢
    tauto
  have hins := ha.insertBefore_head hxa
  rw [List.append_assoc, List.cons_append] at hins
  simpa using circular_rotate.mpr hins

theorem Circular.remove_head (hc : Circular L h (x :: xs)) : Circular (L.remove x) h xs := by
  obtain ⟨⟨-, hprev⟩, hrest⟩ := hc.link_cons
  obtain ⟨hh, hnodup⟩ := List.nodup_cons.mp hc.nodup
  have hnext : L.next x = xs.headD h := hc.next_mid (l := [])
  have hnd : (h :: xs).Nodup :=
    List.nodup_cons.mpr ⟨fun hm => hh (List.mem_cons_of_mem x hm), (List.nodup_cons.mp hnodup).2⟩
  cases xs with
  | nil =>
    apply circular_nil.mpr
    simp [Links.remove, hprev, hnext]
  | cons y ys =>
    have hrest' : (y :: ys ++ [h]).IsChain L.Adjacent := (List.isChain_cons_cons.mp hrest).2
    refine ⟨hnd, List.isChain_cons_cons.mpr ⟨⟨?_, ?_⟩, ?_⟩⟩
    · simp [Links.remove, hprev, hnext]
    · simp [Links.remove, hprev, hnext]
    · apply chain_congr hrest'
      · intro b hb
        have hbm : b ∈ y :: ys := by rwa [List.dropLast_concat] at hb
        have hbh : b ≠ h := fun he => (List.nodup_cons.mp hnd).1 (he ▸ hbm)
        simp [Links.remove, hprev, hbh]
      · intro b hb
        have hbm : b ∈ ys ∨ b = h := by simpa using hb
        have hby : b ≠ y := by
          rintro rfl
          rcases hbm with hbm | rfl
          · exact (List.nodup_cons.mp (List.nodup_cons.mp hnd).2).1 hbm
          · exact (List.nodup_cons.mp hnd).1 List.mem_cons_self
        simp [Links.remove, hnext, hby]

/-- **An element taken out** leaves the others in their order. -/
theorem Circular.remove (hc : Circular L h (l ++ x :: r)) : Circular (L.remove x) h (l ++ r) := by
  rcases List.eq_nil_or_concat' l with rfl | ⟨l, p, rfl⟩
  · exact hc.remove_head
  · -- looked at from the element before it, it is the first one
    rw [List.append_assoc, List.singleton_append] at hc ⊢
    exact circular_rotate.mpr (circular_rotate.mp hc).remove_head

end

end CircularLinks

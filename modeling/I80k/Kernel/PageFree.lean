import I80k.Kernel.PageAlloc

/-!
# Giving pages back

`page_free` decides by the magic number in the memory of the buddy whether it is free. If the number is not
there, the area goes to its own list, and nothing else changes. If it is, the area goes to the list of the order
7, which does not exist: the loop does not look at the buddies of the larger orders, and takes none of them from
its list. The number does not say of which order the free area is, and it may have been stored by whoever has
the memory.

An area that was split for a request is not complete without the half that `page_alloc` has lost, so giving it
back does not give back what was taken.

A list goes through the first 8 bytes of its areas. The half that an area of the order 6 is split into is in another
segment, and overlaps the other half: so a page can have the links of a free area in it. The runs of this module are
those that do not store to them; after such a store the lists are not what they were.

## Main definitions

* `Absorbs`: an area grows by its buddies
* `Pages.linkedStep`: a step that does not store to the links of a free area
* `Pages.FreesCleanly`: `page_free` puts one area on a list, that is made of the page and of free buddies
* `Pages.RoundTrips`: an area that is allocated and given back leaves the free memory as it was
* `Pages.Undoable`: the area comes from its own list, and its buddy does not seem to be free

## Main results

* `Pages.freesCleanly_iff`: when `page_free` is clean
* `Pages.roundTrips_of_undoable`, `Pages.ConservedIn.undoable_of_roundTrips`: when an allocation is undone
* `page_free_undoes_iff`: both, in every state that a run reaches
-/

namespace I80k.Kernel

open DyadicTiling StepSystem

/-- The area `p` and the areas of the list, each the buddy of what was put together before, are the area `r`. -/
inductive Absorbs : Page → List Page → Page → Prop
  | refl (p : Page) : Absorbs p [] p
  | buddy {p q r : Page} {rest : List Page} (h : q.block = p.block.buddy)
    (hrest : Absorbs ⟨min p.addr q.addr, p.order + 1⟩ rest r) : Absorbs p (q :: rest) r

/-- The segments of the memory map of a board: the first one, and how many there are. -/
def ramSegments (segment count : ℕ) : List ℕ := (List.range count).map fun i => toUint (segment + i * 0x1000)

theorem nodup_ramSegments {segment count : ℕ} (hcount : count ≤ 16) : (ramSegments segment count).Nodup := by
  refine List.nodup_range.map_on fun i hi j hj hij => ?_
  have hi' : i < count := List.mem_range.mp hi
  have hj' : j < count := List.mem_range.mp hj
  simp only [toUint] at hij
  omega

namespace Pages

/-- A store does not hit the links of an area on a list. -/
def Spares (s : Pages) : Op → Prop
  | .store p i _ => ∀ order < maxOrder, ∀ zone ∈ s.freeAreas order,
      linear (p.addr + i) < linear zone ∨ linear zone + 8 ≤ linear (p.addr + i)
  | .alloc .. => True
  | .free _ => True

instance (s : Pages) (op : Op) : Decidable (s.Spares op) := by
  cases op with
  | store p i value => exact inferInstanceAs (Decidable (∀ order < maxOrder, ∀ zone ∈ s.freeAreas order, _))
  | alloc order calloc => exact inferInstanceAs (Decidable True)
  | free p => exact inferInstanceAs (Decidable True)

/-- A step in a state whose lists go through the areas. After a store to their links they do not, and nothing is said
about what follows. -/
def linkedStep : Option Pages → Op → Option (Option Pages)
  | none, _ => none
  | some s, op => if s.Spares op then step (some s) op else none

/-- After `page_free(p)` one area more is on the lists; it is made of the page and of its buddies of the orders
from its own up to that of the area, which were on the lists and are not any more. -/
structure Frees (s : Pages) (p : Page) (s' : Pages) (absorbed : List Page) (area : Page) : Prop where
  order_le : p.order ≤ area.order
  order_lt : area.order < maxOrder
  absorbs : Absorbs p absorbed area
  bytes : ∀ x, x ∈ area.block ↔ x ∈ p.block ∨ ∃ q ∈ absorbed, x ∈ q.block
  lists : ∃ rest, s.free.Perm (absorbed ++ rest) ∧ s'.free.Perm (area :: rest)
  allocated : s'.allocated = s.allocated.erase p

/-- `page_free(p)` returns, having put an area on a list. -/
def FreesCleanly (s : Pages) (p : Page) : Prop :=
  ∃ s' absorbed area, s.pageFree p = some s' ∧ Frees s p s' absorbed area

/-- The far pointers to the free memory. -/
def freeMemory (s : Pages) : Set ℕ := { x | ∃ p ∈ s.free, x ∈ p.block }

/-- `page_free` of what `page_alloc` returns, which may be null. -/
def pageFreeResult (s : Pages) : Option Page → Option Pages
  | none => some s
  | some p => s.pageFree p

/-- `page_alloc(order)`, and `page_free` of its result, give back the same free memory. -/
def RoundTrips (s : Pages) (order : ℕ) (calloc : Bool) : Prop :=
  ∃ r s₁ s₂, s.pageAlloc order calloc = some (r, s₁) ∧ s₁.pageFreeResult r = some s₂ ∧
    s₂.freeMemory = s.freeMemory

/-- There is an area of the order on its own list, other than that of order 0, there is memory for the
`struct page`, and once the area is taken its buddy does not have the magic number. -/
def Undoable (s : Pages) (order : ℕ) (calloc : Bool) : Prop :=
  calloc = true ∧ 0 < order ∧ ∃ zone rest, s.freeAreas order = zone :: rest ∧
    (s.setMagic zone 0).magic (pageBuddy zone order) ≠ pageMagic

variable {s s' : Pages} {p : Page} {order : ℕ} {calloc : Bool}

/-! ## Runs that keep the links -/

theorem step_of_linkedStep {s s' : Option Pages} {op : Op} (h : linkedStep s op = some s') : step s op = some s' := by
  cases s with
  | none => cases h
  | some s =>
    rw [linkedStep] at h
    split_ifs at h
    exact h

theorem run_of_linkedStep {s s' : Option Pages} {ops : List Op} (h : run linkedStep s ops = some s') :
    run step s ops = some s' := by
  induction ops generalizing s with
  | nil => exact h
  | cons op ops ih =>
    obtain ⟨t, hstep, hrest⟩ := exists_of_run_cons _ h
    rw [run_cons, step_of_linkedStep hstep]
    exact ih hrest

/-! ## One call -/

theorem pageFree_free (h : s.pageFree p = some s') :
    s'.allocated = s.allocated.erase p ∧ s'.free.Perm (p :: s.free) := by
  by_cases hmagic : s.magic (pageBuddy p.addr p.order) = pageMagic
  · rw [pageFree_merge hmagic] at h
    cases h
  · have hpush : ({ s with allocated := s.allocated.erase p } : Pages).pagePush p.addr p.order = some s' := by
      rw [← h, pageFree]
      exact (if_pos hmagic).symm
    exact pagePush_free hpush

/-- **A page is given back cleanly** if and only if the magic number is not at its buddy. -/
theorem freesCleanly_iff (hmem : p ∈ s.allocated) (horder : p.order < maxOrder) :
    s.FreesCleanly p ↔ s.magic (pageBuddy p.addr p.order) ≠ pageMagic := by
  constructor
  · -- with the magic number the loop goes up to the order 7, for which there is no list
    rintro ⟨s', absorbed, area, hfree, -⟩ hmagic
    rw [pageFree_merge hmagic] at hfree
    cases hfree
  · intro hmagic
    obtain ⟨s', hfree, -⟩ := pageFree_exact hmem horder hmagic
    obtain ⟨hallocated, hperm⟩ := pageFree_free hfree
    refine ⟨s', [], p, hfree, le_rfl, horder, .refl p, by simp, ⟨s.free, List.Perm.refl _, hperm⟩, hallocated⟩

/-! ## An allocation that is undone -/

theorem freeMemory_eq_of_perm (h : s.free.Perm s'.free) : s.freeMemory = s'.freeMemory := by
  ext x
  exact ⟨fun ⟨p, hp, hx⟩ => ⟨p, h.mem_iff.mp hp, hx⟩, fun ⟨p, hp, hx⟩ => ⟨p, h.mem_iff.mpr hp, hx⟩⟩

/-- An area of the own list is handed out, and comes back to it. -/
theorem roundTrips_of_undoable (hmax : order < maxOrder) (h : s.Undoable order calloc) :
    s.RoundTrips order calloc := by
  obtain ⟨rfl, hpos, zone, rest, hlist, hmagic⟩ := h
  have halloc := pageAlloc_cons hmax hlist true
  rw [splitLoop_exact _ hpos hmax, Option.bind_some, if_pos rfl] at halloc
  -- the area is not split, so its buddy is as it was before the call
  set s₁ : Pages := { s.take order zone rest with
    allocated := ⟨zone, order⟩ :: (s.take order zone rest).allocated }
  obtain ⟨s₂, hfree, -⟩ : ∃ s₂, s₁.pageFree ⟨zone, order⟩ = some s₂ ∧ _ :=
    pageFree_exact List.mem_cons_self hmax hmagic
  refine ⟨some ⟨zone, order⟩, s₁, s₂, halloc, hfree, freeMemory_eq_of_perm ?_⟩
  have hback := (pageFree_free hfree).2
  exact hback.trans (take_free hmax hlist).symm

/-! What the loops of `page_alloc` leave: the pages that are handed out. -/

theorem pagePop_allocated {zone : Option ℕ} (h : s.pagePop order = some (zone, s')) :
    s'.allocated = s.allocated := by
  rw [pagePop] at h
  split_ifs at h
  split at h
  · exact (Prod.mk.inj (Option.some.inj h)).2 ▸ rfl
  · exact (Prod.mk.inj (Option.some.inj h)).2 ▸ rfl

theorem popLoop_allocated (fuel : ℕ) : ∀ {zone : Option ℕ} {index : ℕ} {s : Pages}
    {r : Option ℕ × ℕ × Pages}, popLoop fuel zone index s = some r → r.2.2.allocated = s.allocated := by
  induction fuel with
  | zero =>
    intro zone index s r h
    exact Option.some.inj h ▸ rfl
  | succ fuel ih =>
    intro zone index s r h
    rw [popLoop] at h
    split_ifs at h
    · obtain ⟨⟨zone', t⟩, hpop, hrest⟩ := Option.bind_eq_some_iff.mp h
      exact (ih hrest).trans (pagePop_allocated hpop)
    · exact Option.some.inj h ▸ rfl

theorem splitLoop_allocated {zone : ℕ} (fuel : ℕ) : ∀ {index : ℕ} {s s' : Pages},
    splitLoop zone order fuel index s = some s' → s'.allocated = s.allocated := by
  induction fuel with
  | zero =>
    intro index s s' h
    exact Option.some.inj h ▸ rfl
  | succ fuel ih =>
    intro index s s' h
    rw [splitLoop] at h
    split_ifs at h
    · obtain ⟨t, hpush, hrest⟩ := Option.bind_eq_some_iff.mp h
      exact (ih hrest).trans (pagePush_free hpush).1
    · exact Option.some.inj h ▸ rfl

/-- The page that is handed out. -/
theorem pageAlloc_allocated (hmax : order < maxOrder) (h : s.pageAlloc order calloc = some (some p, s')) :
    s'.allocated = p :: s.allocated := by
  rw [pageAlloc_eq hmax] at h
  obtain ⟨⟨zone, t⟩, hpop, h⟩ := Option.bind_eq_some_iff.mp h
  obtain ⟨⟨zone', index, u⟩, hloop, h⟩ := Option.bind_eq_some_iff.mp h
  have hallocated : u.allocated = s.allocated :=
    (popLoop_allocated maxOrder hloop).trans (pagePop_allocated hpop)
  cases zone' with
  | none => cases (Prod.mk.inj (Option.some.inj h)).1
  | some zone' =>
    rw [afterSearch] at h
    obtain ⟨v, hsplit, h⟩ := Option.bind_eq_some_iff.mp h
    unfold finish at h
    split_ifs at h
    obtain ⟨hp, rfl⟩ := Prod.mk.inj (Option.some.inj h)
    rw [← Option.some.inj hp, ← hallocated, ← splitLoop_allocated maxOrder hsplit]

/-- **While the areas are disjoint**, only such an allocation is undone: one that splits an area loses a half of
it. -/
theorem ConservedIn.undoable_of_roundTrips {segments : List ℕ} (hs : s.ConservedIn segments)
    (hmax : order < maxOrder) (h : s.RoundTrips order calloc) : s.Undoable order calloc := by
  obtain ⟨r, s₁, s₂, halloc, hfree, hmemory⟩ := h
  cases r with
  | none => exact absurd halloc (pageAlloc_ne_null hmax s₁)
  | some p =>
    obtain ⟨rfl, hzero, -⟩ := (pageAlloc_some_iff hmax).mp ⟨p, s₁, halloc⟩
    have hfree' : s₁.pageFree p = some s₂ := hfree
    have hmagic : s₁.magic (pageBuddy p.addr p.order) ≠ pageMagic := by
      intro hmagic
      rw [pageFree_merge hmagic] at hfree'
      cases hfree'
    cases hlist : s.freeAreas order with
    | cons zone rest =>
      have hpos : 0 < order := by
        refine Nat.pos_of_ne_zero fun h₀ => ?_
        have hnil := hzero h₀
        rw [← h₀, hlist] at hnil
        cases hnil
      rw [pageAlloc_cons hmax hlist, splitLoop_exact _ hpos hmax, Option.bind_some, if_pos rfl] at halloc
      obtain ⟨hp, rfl⟩ := Prod.mk.inj (Option.some.inj halloc)
      obtain rfl := Option.some.inj hp
      exact ⟨rfl, hpos, zone, rest, hlist, hmagic⟩
    | nil =>
      -- The bytes on the lists are fewer than before, but the same.
      have hloss := pageAlloc_loses hmax hlist halloc
      obtain ⟨hallocated, hperm⟩ := pageFree_free hfree'
      have htaken := pageAlloc_allocated hmax halloc
      rw [htaken, List.erase_cons_head] at hallocated
      have hfewer : total (s₂.free.map Page.block) < total (s.free.map Page.block) := by
        have htotal := total_perm (hperm.map Page.block)
        rw [List.map_cons, total_cons] at htotal
        simp only [size, areas, htaken, List.map_append, List.map_cons, total_append, total_cons] at hloss
        omega
      -- no byte is on two lists, so that the number of bytes is that of the set
      have hone : ∀ x, cover (s.free.map Page.block) x ≤ 1 := by
        intro x
        refine le_trans ?_ (hs.tiles.cover_le_one x)
        rw [areas, List.map_append, cover, cover, List.countP_append]
        exact Nat.le_add_left _ _
      refine absurd (total_le_of_subset hone fun x hx => ?_) (not_le.mpr hfewer)
      have hmem : x ∈ s.freeMemory := by simpa [freeMemory] using hx
      rw [← hmemory] at hmem
      simpa [freeMemory] using hmem

end Pages

/-- **What `page_free` gives back.** In every state that a run after `mem_initialize` reaches without a store to the
links of a free area: `page_free` of a page puts one area on a list, made of the page and of free buddies that it takes
from their lists, if and only if the magic number is not at the buddy of the page; and `page_alloc` followed by
`page_free` gives back the same free memory, if the area comes from its own list, other than that of order 0, with
memory for its `struct page` and without the magic number at its buddy. As long as the areas are disjoint, it does so
only then. -/
theorem page_free_undoes_iff (segment count : ℕ) (hcount : count ≤ 16) (mem : ℕ → UInt8) (ops : List Pages.Op)
    (s : Pages)
    (hrun : run Pages.linkedStep (Pages.memInitialize mem (ramSegments segment count)) ops = some (some s)) :
    (∀ p ∈ s.allocated, p.order < maxOrder →
      (s.FreesCleanly p ↔ s.magic (pageBuddy p.addr p.order) ≠ pageMagic)) ∧
    ∀ order < maxOrder, ∀ calloc,
      (s.Undoable order calloc → s.RoundTrips order calloc) ∧
      (Steps Pages.step Pages.Exact (Pages.memInitialize mem (ramSegments segment count)) ops →
        s.RoundTrips order calloc → s.Undoable order calloc) := by
  refine ⟨fun p hp horder => Pages.freesCleanly_iff hp horder, fun order hmax calloc =>
    ⟨Pages.roundTrips_of_undoable hmax, fun hsteps htrip => ?_⟩⟩
  have hconserved : Always Pages.step (Pages.Conserved (ramSegments segment count))
      (Pages.memInitialize mem (ramSegments segment count)) ops := by
    refine always_of_steps (fun s op s' hs hexact hstep => ?_)
      (Pages.conserved_memInitialize (nodup_ramSegments hcount) mem) hsteps
    cases s with
    | none => exact hs.elim
    | some s => exact Pages.ConservedIn.step hs hexact hstep
  exact Pages.ConservedIn.undoable_of_roundTrips (hconserved.last (Pages.run_of_linkedStep hrun)) hmax htrip

/-- A segment is handed out: it is given back cleanly. -/
theorem page_free_undoes_segment :
    ∃ s, run Pages.linkedStep (Pages.memInitialize (fun _ => 0) (ramSegments 0x2000 1)) [.alloc 6 true] =
        some (some s) ∧
      s.allocated = [⟨0x20000000, 6⟩] ∧ s.FreesCleanly ⟨0x20000000, 6⟩ := by
  have hrun : (run Pages.linkedStep (Pages.memInitialize (fun _ => 0) (ramSegments 0x2000 1)) [.alloc 6 true]).map
      (fun r => r.map fun s => (s.allocated, s.magic (pageBuddy 0x20000000 6))) =
        some (some ([⟨0x20000000, 6⟩], 0)) := by
    decide
  obtain ⟨r, hr, hmap⟩ := Option.map_eq_some_iff.mp hrun
  obtain ⟨s, rfl, hs⟩ := Option.map_eq_some_iff.mp hmap
  obtain ⟨hallocated, hmagic⟩ := Prod.mk.inj hs
  refine ⟨s, hr, hallocated, ?_⟩
  have hclean := (page_free_undoes_iff 0x2000 1 (by decide) _ _ s hr).1 ⟨0x20000000, 6⟩ (by simp [hallocated])
    (by decide)
  rw [hclean, hmagic]
  decide

/-- A page of order 0 is on its list, and the page after it, of order 1, is given back: its buddy has the magic
number, and the area goes to `free_areas[7]`. -/
theorem not_freesCleanly_other_order :
    ∃ s, run Pages.linkedStep (Pages.memInitialize (fun _ => 0) (ramSegments 0x2000 1))
        [.alloc 0 true, .free ⟨0x20000000, 0⟩, .alloc 1 true] = some (some s) ∧
      s.allocated = [⟨0x20000800, 1⟩] ∧ s.freeAreas 0 = [0x20000000] ∧ ¬ s.FreesCleanly ⟨0x20000800, 1⟩ := by
  have hrun : (run Pages.linkedStep (Pages.memInitialize (fun _ => 0) (ramSegments 0x2000 1))
      [.alloc 0 true, .free ⟨0x20000000, 0⟩, .alloc 1 true]).map (fun r => r.map fun s =>
        (s.allocated, s.freeAreas 0, s.magic (pageBuddy 0x20000800 1))) =
          some (some ([⟨0x20000800, 1⟩], [0x20000000], pageMagic)) := by
    decide
  obtain ⟨r, hr, hmap⟩ := Option.map_eq_some_iff.mp hrun
  obtain ⟨s, rfl, hs⟩ := Option.map_eq_some_iff.mp hmap
  simp only [Prod.mk.injEq] at hs
  obtain ⟨hallocated, hlist, hmagic⟩ := hs
  refine ⟨s, hr, hallocated, hlist, ?_⟩
  rw [Pages.freesCleanly_iff (by simp [hallocated]) (by decide), not_not]
  exact hmagic

end I80k.Kernel

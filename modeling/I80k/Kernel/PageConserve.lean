import I80k.Kernel.Page
import I80k.Lib.Dyadic

/-!
# Whether pages are conserved

The areas that are handed out and the free areas should tile the memory that was added. An area that is
taken from its own list, or put back on it, does not change that. Everything else does:

* an area of a larger order is split, but its half of the requested order is not put on a list;
* the search for an area, if there is none, goes on to a list that does not exist;
* the first turn of the second loop of `page_alloc` takes an index of 0 to 65535;
* an area whose buddy is free is merged up to an order that does not exist.

## Main definitions

* `Pages.areas`: the areas that are handed out, and the free areas
* `Pages.Conserved`: they tile the memory that was added, and each is aligned in its segment
* `Pages.Exact`: a call takes an area from its own list, or puts it back there

## Main results

* `Pages.pageAlloc_loses`: an area that is split loses its half
* `page_conserved_iff`: pages are conserved along exactly the runs whose calls are all `Exact`
-/

namespace I80k.Kernel

open DyadicTiling

/-- The far pointers to an area. -/
def Page.block (p : Page) : Block := ⟨p.addr, pageShift + p.order⟩

/-- Aligned on its size, and within its segment. -/
def Page.Aligned (p : Page) : Prop :=
  p.addr % 2 ^ 16 % 2 ^ (pageShift + p.order) = 0 ∧ p.addr % 2 ^ 16 + 2 ^ (pageShift + p.order) ≤ 2 ^ 16

/-- An aligned area has an order below 7. -/
theorem Page.Aligned.order_lt {p : Page} (h : p.Aligned) : p.order < maxOrder := by
  have hle : 2 ^ (pageShift + p.order) ≤ 2 ^ 16 := (Nat.le_add_left _ _).trans h.2
  have hexp := (Nat.pow_le_pow_iff_right (by norm_num)).mp hle
  simp only [pageShift, maxOrder] at *
  omega

/-- The far pointers to the bytes of the segments. -/
def segmentBytes (segments : List ℕ) : Set ℕ := { x | x / 2 ^ 16 ∈ segments }

namespace Pages

/-- The areas on the lists. -/
def free (s : Pages) : List Page :=
  (List.range maxOrder).flatMap fun order => (s.freeAreas order).map fun addr => ⟨addr, order⟩

/-- The areas that are handed out, and those on the lists. -/
def areas (s : Pages) : List Page := s.allocated ++ s.free

/-- The areas are disjoint, together they are the memory of the segments, and each is aligned. -/
structure ConservedIn (segments : List ℕ) (s : Pages) : Prop where
  tiles : Tiles (s.areas.map Page.block) (segmentBytes segments)
  aligned : ∀ p ∈ s.areas, p.Aligned

/-- Pages are conserved; they are not after a call without a result. -/
def Conserved (segments : List ℕ) : Option Pages → Prop
  | none => False
  | some s => s.ConservedIn segments

/-- An allocation takes the first area of its own list, which is not the list of order 0, and there is
memory for the `struct page`; an area that is freed does not find the magic number at its buddy. -/
def Exact : Option Pages → Op → Prop
  | some s, .alloc order calloc => maxOrder ≤ order ∨ 0 < order ∧ s.freeAreas order ≠ [] ∧ calloc = true
  | some s, .free p => p ∈ s.allocated → s.magic (pageBuddy p.addr p.order) ≠ pageMagic
  | _, _ => True

instance decidableExact : ∀ s op, Decidable (Exact s op)
  | some _, .alloc _ _ => inferInstanceAs (Decidable (_ ∨ _ ∧ _ ∧ _))
  | some _, .free _ => inferInstanceAs (Decidable (_ → _))
  | some _, .store _ _ _ => inferInstanceAs (Decidable True)
  | none, _ => inferInstanceAs (Decidable True)

theorem ConservedIn.perm {segments : List ℕ} {s s' : Pages} (h : s.ConservedIn segments)
    (hp : s.areas.Perm s'.areas) : s'.ConservedIn segments where
  tiles := h.tiles.perm (hp.map _)
  aligned p hmem := h.aligned p (hp.mem_iff.mpr hmem)

/-! ## The lists -/

/-- The list of one order, and the others. -/
theorem exists_others (s : Pages) {order : ℕ} (h : order < maxOrder) :
    ∃ others, ∀ list, (s.setList order list).free.Perm (list.map (Page.mk · order) ++ others) := by
  -- The orders before and after this one, whose lists do not change.
  obtain ⟨before, after, hrange⟩ := List.append_of_mem (List.mem_range.mpr h)
  have hnodup : (before ++ order :: after).Nodup := hrange ▸ List.nodup_range
  have hne : ∀ i ∈ before ++ after, i ≠ order := by
    intro i hi heq
    have hcons := (List.nodup_middle.mp hnodup).notMem
    exact hcons (heq ▸ hi)
  refine ⟨(before ++ after).flatMap fun i => (s.freeAreas i).map (Page.mk · i), fun list => ?_⟩
  have hsame : ∀ is : List ℕ, (∀ i ∈ is, i ≠ order) →
      (is.flatMap fun i => ((s.setList order list).freeAreas i).map (Page.mk · i)) =
        is.flatMap fun i => (s.freeAreas i).map (Page.mk · i) := by
    intro is his
    refine List.flatMap_congr fun i hi => ?_
    simp [setList, his i hi]
  have hown : (s.setList order list).freeAreas order = list := by
    simp [setList]
  rw [free, hrange, List.flatMap_append, List.flatMap_cons, hown,
    hsame before fun i hi => hne i (List.mem_append_left _ hi),
    hsame after fun i hi => hne i (List.mem_append_right _ hi), List.flatMap_append]
  exact List.perm_append_comm_assoc _ _ _

/-- The free areas depend on the lists only. -/
theorem free_congr {s s' : Pages} (h : s.freeAreas = s'.freeAreas) : s.free = s'.free := by
  unfold free
  rw [h]

/-- Handing out an area. -/
theorem areas_allocate (s : Pages) (p : Page) :
    ({ s with allocated := p :: s.allocated } : Pages).areas = p :: s.areas := by
  unfold areas
  rw [List.cons_append]
  congr 2

theorem setList_self (s : Pages) (order : ℕ) : s.setList order (s.freeAreas order) = s := by
  rw [setList, Function.update_eq_self]

/-- The state after the first area of a list was taken. -/
def take (s : Pages) (order zone : ℕ) (rest : List ℕ) : Pages := (s.setList order rest).setMagic zone 0

/-- Taking an area from a list. -/
theorem take_free {s : Pages} {order zone : ℕ} {rest : List ℕ} (hlt : order < maxOrder)
    (hlist : s.freeAreas order = zone :: rest) : s.free.Perm (⟨zone, order⟩ :: (s.take order zone rest).free) := by
  obtain ⟨others, hothers⟩ := s.exists_others hlt
  have hbefore := hothers (zone :: rest)
  rw [← hlist, setList_self, hlist, List.map_cons, List.cons_append] at hbefore
  exact hbefore.trans ((hothers rest).symm.cons _)

theorem pagePop_cons {s : Pages} {order zone : ℕ} {rest : List ℕ} (hlt : order < maxOrder)
    (hlist : s.freeAreas order = zone :: rest) : s.pagePop order = some (some zone, s.take order zone rest) := by
  rw [pagePop, if_neg (by omega), hlist]
  rfl

theorem pagePop_some {s s' : Pages} {order zone : ℕ} (h : s.pagePop order = some (some zone, s')) :
    order < maxOrder ∧ s.areas.Perm (⟨zone, order⟩ :: s'.areas) := by
  have hlt : order < maxOrder := by
    by_contra hge
    rw [pagePop, if_pos (not_lt.mp hge)] at h
    cases h
  refine ⟨hlt, ?_⟩
  cases hlist : s.freeAreas order with
  | nil =>
    rw [pagePop, if_neg (by omega), hlist] at h
    cases h
  | cons first rest =>
    rw [pagePop_cons hlt hlist] at h
    obtain ⟨hzone, rfl⟩ := Prod.mk.inj (Option.some.inj h)
    obtain rfl := Option.some.inj hzone
    exact ((take_free hlt hlist).append_left s.allocated).trans List.perm_middle

/-- There was nothing to take. -/
theorem pagePop_none {s s' : Pages} {order : ℕ} (h : s.pagePop order = some (none, s')) :
    order < maxOrder ∧ s' = s ∧ s.freeAreas order = [] := by
  rw [pagePop] at h
  split_ifs at h with horder
  refine ⟨by omega, ?_⟩
  cases hlist : s.freeAreas order with
  | nil =>
    simp only [hlist, Option.some.injEq, Prod.mk.injEq, true_and] at h
    exact ⟨h.symm, rfl⟩
  | cons first rest =>
    simp only [hlist, Option.some.injEq, Prod.mk.injEq] at h
    cases h.1

/-- Putting an area on a list. -/
theorem pagePush_free {s s' : Pages} {addr order : ℕ} (h : s.pagePush addr order = some s') :
    s'.allocated = s.allocated ∧ s'.free.Perm (⟨addr, order⟩ :: s.free) := by
  rw [pagePush] at h
  split_ifs at h with horder
  obtain rfl := Option.some.inj h
  obtain ⟨others, hothers⟩ := s.exists_others (show order < maxOrder by omega)
  have hafter := hothers (addr :: s.freeAreas order)
  have hbefore := (hothers (s.freeAreas order)).symm
  rw [setList_self] at hbefore
  exact ⟨rfl, hafter.trans (hbefore.cons _)⟩

theorem pagePush_some {s s' : Pages} {addr order : ℕ} (h : s.pagePush addr order = some s') :
    s'.areas.Perm (⟨addr, order⟩ :: s.areas) := by
  obtain ⟨hallocated, hfree⟩ := pagePush_free h
  rw [areas, hallocated]
  exact (hfree.append_left s.allocated).trans List.perm_middle

/-- The sum of the sizes of the areas. -/
def size (s : Pages) : ℕ := total (s.areas.map Page.block)

theorem ConservedIn.size_eq {segments : List ℕ} {s s' : Pages} (h : s.ConservedIn segments)
    (h' : s'.ConservedIn segments) : s.size = s'.size := h.tiles.total_eq h'.tiles

theorem size_of_perm {s s' : Pages} {p : Page} (h : s.areas.Perm (p :: s'.areas)) :
    s.size = 2 ^ (pageShift + p.order) + s'.size :=
  total_perm (h.map Page.block)

/-! ## The loops of an allocation -/

/-- The first loop does nothing, if there is an area already. -/
theorem popLoop_some (fuel zone index : ℕ) (s : Pages) :
    popLoop fuel (some zone) index s = some (some zone, index, s) := by
  cases fuel with
  | zero => rfl
  | succ fuel => rw [popLoop, if_neg (by simp)]

/-- The first loop, after an empty list: an area of a larger order. If there is none, the loop ends at a
list that does not exist. -/
theorem popLoop_none (fuel : ℕ) : ∀ {index : ℕ} {s : Pages} {r : Option ℕ × ℕ × Pages},
    index < maxOrder → maxOrder ≤ index + fuel → popLoop fuel none index s = some r →
      ∃ zone, r.1 = some zone ∧ index < r.2.1 ∧ r.2.1 < maxOrder ∧
        s.areas.Perm (⟨zone, r.2.1⟩ :: r.2.2.areas) := by
  -- Induction on the orders left to look at.
  induction fuel with
  | zero =>
    intro index s r hindex hfuel
    omega
  | succ fuel ih =>
    intro index s r hindex hfuel h
    rw [popLoop, if_pos ⟨rfl, hindex⟩] at h
    obtain ⟨⟨zone, s'⟩, hpop, hrest⟩ := Option.bind_eq_some_iff.mp h
    dsimp only at hrest
    cases zone with
    | none =>
      obtain ⟨hlt, rfl, -⟩ := pagePop_none hpop
      obtain ⟨zone, hzone, hgt, hmax, hperm⟩ := ih hlt (by omega) hrest
      exact ⟨zone, hzone, by omega, hmax, hperm⟩
    | some zone =>
      obtain ⟨hlt, hperm⟩ := pagePop_some hpop
      rw [popLoop_some] at hrest
      obtain rfl := Option.some.inj hrest
      exact ⟨zone, rfl, by simp, hlt, hperm⟩

/-- The second loop puts the halves of all orders between on their lists, but not that of the requested
order. -/
theorem splitLoop_size {zone order : ℕ} (fuel : ℕ) : ∀ {index : ℕ} {s s' : Pages},
    order < index → index < maxOrder → index ≤ order + fuel → splitLoop zone order fuel index s = some s' →
      s'.size + 2 ^ (pageShift + order + 1) = s.size + 2 ^ (pageShift + index) := by
  -- Each turn puts one half on a list, and goes on with the other.
  induction fuel with
  | zero =>
    intro index s s' hlt _ hfuel
    omega
  | succ fuel ih =>
    intro index s s' hlt hmax hfuel h
    have hmax' : index < 7 := hmax
    have hindex : toUint (index + (2 ^ 16 - 1)) = index - 1 := by
      rw [toUint]
      omega
    obtain ⟨i, rfl⟩ : ∃ i, index = i + 1 := ⟨index - 1, by omega⟩
    rw [splitLoop] at h
    simp only [hindex, Nat.add_sub_cancel] at h
    split_ifs at h with hmore
    · obtain ⟨t, hpush, h⟩ := Option.bind_eq_some_iff.mp h
      have hsize := size_of_perm (pagePush_some hpush)
      have hrest := ih hmore (by omega) (by omega) h
      dsimp only at hsize
      rw [hsize] at hrest
      rw [hrest, ← Nat.add_assoc pageShift, Nat.pow_succ]
      omega
    · obtain rfl := Option.some.inj h
      rw [show i = order by omega]
      rfl

/-- The second loop does nothing for an area of the requested order, unless that is 0. -/
theorem splitLoop_exact {zone order fuel : ℕ} (s : Pages) (hpos : 0 < order) (hmax : order < maxOrder) :
    splitLoop zone order fuel order s = some s := by
  cases fuel with
  | zero => rfl
  | succ fuel =>
    have hmax' : order < 7 := hmax
    have hindex : toUint (order + (2 ^ 16 - 1)) = order - 1 := by
      rw [toUint]
      omega
    simp only [splitLoop, hindex]
    rw [if_neg (by omega)]

/-- For order 0 it goes to a list that does not exist. -/
theorem splitLoop_zero {zone fuel : ℕ} (s : Pages) : splitLoop zone 0 (fuel + 1) 0 s = none := by
  rfl

/-! ## Calls -/

/-- An area of the own list, and what the rest of `page_alloc` does with it. -/
theorem pageAlloc_cons {s : Pages} {order zone : ℕ} {rest : List ℕ} (hmax : order < maxOrder)
    (hlist : s.freeAreas order = zone :: rest) (calloc : Bool) :
    s.pageAlloc order calloc =
      (splitLoop zone order maxOrder order (s.take order zone rest)).bind fun t =>
        if calloc then some (some ⟨zone, order⟩, { t with allocated := ⟨zone, order⟩ :: t.allocated })
        else none := by
  have hloop := popLoop_some maxOrder zone order (s.take order zone rest)
  rw [pageAlloc, if_neg (Nat.not_le.mpr hmax), pagePop_cons hmax hlist, Option.bind_eq_bind, Option.bind_some]
  dsimp only
  rw [hloop, Option.bind_eq_bind, Option.bind_some]
  rfl

/-- **An area of the own list** is handed out, and nothing else changes. -/
theorem pageAlloc_exact {s : Pages} {order : ℕ} (hpos : 0 < order) (hmax : order < maxOrder)
    (hlist : s.freeAreas order ≠ []) :
    ∃ s', (s.pageAlloc order true).map Prod.snd = some s' ∧ s.areas.Perm s'.areas := by
  obtain ⟨zone, rest, hcons⟩ := List.exists_cons_of_ne_nil hlist
  refine ⟨{ s.take order zone rest with allocated := ⟨zone, order⟩ :: s.allocated }, ?_, ?_⟩
  · rw [pageAlloc_cons hmax hcons, splitLoop_exact _ hpos hmax, Option.bind_some, if_pos rfl, Option.map_some]
    rfl
  · have harea := areas_allocate (s.take order zone rest) ⟨zone, order⟩
    exact (pagePop_some (pagePop_cons hmax hcons)).2.trans (harea ▸ List.Perm.refl _)

/-- A call for an area of the own list has no result, if the order is 0 or there is no memory. -/
theorem pageAlloc_fails {s : Pages} {order : ℕ} {calloc : Bool} (hmax : order < maxOrder)
    (hlist : s.freeAreas order ≠ []) (h : order = 0 ∨ calloc = false) :
    s.pageAlloc order calloc = none := by
  obtain ⟨zone, rest, hcons⟩ := List.exists_cons_of_ne_nil hlist
  rw [pageAlloc_cons hmax hcons]
  rcases Nat.eq_zero_or_pos order with rfl | hpos
  · rw [show maxOrder = 6 + 1 from rfl, splitLoop_zero]
    rfl
  · rw [splitLoop_exact _ hpos hmax, h.resolve_left (by omega)]
    rfl

/-- **An area that is split** loses its half of the requested order. -/
theorem pageAlloc_loses {s : Pages} {order : ℕ} {calloc : Bool} {r : Option Page × Pages}
    (hmax : order < maxOrder) (hlist : s.freeAreas order = []) (h : s.pageAlloc order calloc = some r) :
    r.2.size < s.size := by
  have hpop : s.pagePop order = some (none, s) := by
    rw [pagePop, if_neg (by omega), hlist]
  rw [pageAlloc, if_neg (by omega), hpop] at h
  simp only [Option.bind_eq_bind, Option.bind_some] at h
  obtain ⟨⟨zone, index, t⟩, hloop, hrest⟩ := Option.bind_eq_some_iff.mp h
  obtain ⟨zone, rfl, hlt, hindex, hperm⟩ := popLoop_none maxOrder hmax (Nat.le_add_left _ _) hloop
  dsimp only at hrest hlt hindex hperm
  obtain ⟨u, hsplit, hrest⟩ := Option.bind_eq_some_iff.mp hrest
  split_ifs at hrest with hcalloc
  obtain rfl := Option.some.inj hrest
  -- An area of order `index` is taken, and what comes back is short of one of the order asked for.
  have hsize := size_of_perm hperm
  have hloss := splitLoop_size maxOrder hlt hindex (by omega) hsplit
  have hfinal : ({ u with allocated := ⟨zone, order⟩ :: u.allocated } : Pages).size =
      2 ^ (pageShift + order) + u.size := by
    rw [size, areas_allocate]
    rfl
  have hpow : 0 < 2 ^ (pageShift + order) := Nat.two_pow_pos _
  rw [Nat.pow_succ] at hloss
  dsimp only at hsize ⊢
  omega

theorem mergeLoop_order (fuel : ℕ) : ∀ (addr buddy order : ℕ), maxOrder ≤ order + fuel →
    maxOrder ≤ (mergeLoop fuel addr buddy order).2 := by
  induction fuel with
  | zero =>
    intro addr buddy order h
    exact h
  | succ fuel ih =>
    intro addr buddy order h
    rw [mergeLoop]
    by_cases hlt : order < maxOrder
    · rw [if_pos hlt]
      exact ih _ _ _ (by omega)
    · rw [if_neg hlt]
      exact Nat.le_of_not_lt hlt

/-- **An area that goes back to its list.** -/
theorem pageFree_exact {s : Pages} {p : Page} (hmem : p ∈ s.allocated) (horder : p.order < maxOrder)
    (hmagic : s.magic (pageBuddy p.addr p.order) ≠ pageMagic) :
    ∃ s', s.pageFree p = some s' ∧ s.areas.Perm s'.areas := by
  set t : Pages := { s with allocated := s.allocated.erase p } with ht
  have hmagic' : t.magic (pageBuddy p.addr p.order) ≠ pageMagic := hmagic
  set s' := (t.setMagic p.addr pageMagic).setList p.order (p.addr :: t.freeAreas p.order)
  have hpush : t.pagePush p.addr p.order = some s' := if_neg (by omega)
  refine ⟨s', ?_, ?_⟩
  · rw [pageFree]
    simp only [← ht]
    rw [if_pos hmagic']
    exact hpush
  · -- The area moves from those handed out to its list.
    have hfree : t.free = s.free := free_congr rfl
    have herase : s.areas.Perm (p :: t.areas) := by
      unfold areas
      rw [hfree]
      exact (List.perm_cons_erase hmem).append_right _
    exact herase.trans (pagePush_some hpush).symm

/-- An area whose buddy seems to be free goes to a list that does not exist. -/
theorem pageFree_merge {s : Pages} {p : Page} (hmagic : s.magic (pageBuddy p.addr p.order) = pageMagic) :
    s.pageFree p = none := by
  have horder := mergeLoop_order maxOrder p.addr (pageBuddy p.addr p.order) p.order (Nat.le_add_left _ _)
  set t : Pages := { s with allocated := s.allocated.erase p } with ht
  have hmagic' : ¬ t.magic (pageBuddy p.addr p.order) ≠ pageMagic := not_not.mpr hmagic
  rw [pageFree]
  simp only [← ht]
  rw [if_neg hmagic', pagePush, if_pos horder]

/-! ## Runs -/

theorem ConservedIn.step {segments : List ℕ} {s : Pages} {op : Op} {s' : Option Pages}
    (h : s.ConservedIn segments) (hexact : Exact (some s) op) (hstep : step (some s) op = some s') :
    Conserved segments s' := by
  cases op with
  | alloc order calloc =>
    obtain rfl := Option.some.inj hstep
    -- A request that is refused, or one that its list serves as it is.
    rcases hexact with hmax | ⟨hpos, hlist, rfl⟩
    · rw [pageAlloc, if_pos hmax]
      exact h
    · rcases Nat.lt_or_ge order maxOrder with hlt | hge
      · obtain ⟨t, ht, hperm⟩ := pageAlloc_exact hpos hlt hlist
        rw [ht]
        exact h.perm hperm
      · rw [pageAlloc, if_pos hge]
        exact h
  | free p =>
    rw [Pages.step] at hstep
    split_ifs at hstep with hmem
    have haligned := h.aligned p (List.mem_append_left _ hmem)
    obtain ⟨t, ht, hperm⟩ := pageFree_exact hmem haligned.order_lt (hexact hmem)
    rw [← Option.some.inj hstep, ht]
    exact h.perm hperm
  | store p i value =>
    rw [Pages.step] at hstep
    split_ifs at hstep
    rw [← Option.some.inj hstep]
    exact h.perm (List.Perm.refl _)

theorem ConservedIn.loses {segments : List ℕ} {s : Pages} {op : Op} (h : s.ConservedIn segments)
    (hexact : ¬ Exact (some s) op) : ∃ s', Pages.step (some s) op = some s' ∧ ¬ Conserved segments s' := by
  cases op with
  | alloc order calloc =>
    obtain ⟨hmax, hcond⟩ := not_or.mp hexact
    have hlt : order < maxOrder := Nat.lt_of_not_le hmax
    refine ⟨_, rfl, ?_⟩
    cases hresult : s.pageAlloc order calloc with
    | none => exact id
    | some r =>
      intro hconserved
      -- With its own list empty the sizes do not add up; else the call has no result.
      by_cases hlist : s.freeAreas order = []
      · have hloss := pageAlloc_loses hlt hlist hresult
        exact absurd (h.size_eq hconserved) hloss.ne'
      · have hfail : order = 0 ∨ calloc = false := by
          rcases Nat.eq_zero_or_pos order with hzero | hpos
          · exact Or.inl hzero
          · exact Or.inr (Bool.eq_false_iff.mpr fun hcalloc => hcond ⟨hpos, hlist, hcalloc⟩)
        rw [pageAlloc_fails hlt hlist hfail] at hresult
        cases hresult
  | free p =>
    simp only [Exact, Classical.not_imp, not_not] at hexact
    refine ⟨s.pageFree p, if_pos hexact.1, ?_⟩
    rw [pageFree_merge hexact.2]
    exact id
  | store p i value => exact absurd trivial hexact

/-! ## The memory that is added -/

/-- Adding segments puts them at the end of the list of order 6. -/
theorem foldlM_pageAdd (segments : List ℕ) : ∀ s : Pages, ∃ t,
    segments.foldlM (fun s segment => s.pageAdd (segment * 2 ^ 16) 6) s = some t ∧
      t.areas.Perm (segments.map (fun segment => ⟨segment * 2 ^ 16, 6⟩) ++ s.areas) := by
  -- Each segment is one more area of order 6.
  induction segments with
  | nil =>
    intro s
    exact ⟨s, rfl, List.Perm.refl _⟩
  | cons segment segments ih =>
    intro s
    obtain ⟨others, hothers⟩ := s.exists_others (show 6 < maxOrder by decide)
    set u := (s.setMagic (segment * 2 ^ 16) pageMagic).setList 6 (s.freeAreas 6 ++ [segment * 2 ^ 16])
      with hu
    have hadd : s.pageAdd (segment * 2 ^ 16) 6 = some u := by
      rw [pageAdd, if_neg (by decide), pageQueue, if_neg (by decide)]
    have hbefore := (hothers (s.freeAreas 6)).symm
    rw [setList_self] at hbefore
    have hafter : u.free.Perm (⟨segment * 2 ^ 16, 6⟩ :: s.free) := by
      have hlist := hothers (s.freeAreas 6 ++ [segment * 2 ^ 16])
      rw [List.map_append, List.append_assoc] at hlist
      exact hlist.trans (List.perm_middle.trans (hbefore.cons _))
    obtain ⟨t, ht, hperm⟩ := ih u
    refine ⟨t, ?_, ?_⟩
    · rw [List.foldlM_cons, hadd, Option.bind_eq_bind, Option.bind_some]
      exact ht
    · have hu' : u.areas.Perm (⟨segment * 2 ^ 16, 6⟩ :: s.areas) :=
        (hafter.append_left s.allocated).trans List.perm_middle
      exact hperm.trans ((hu'.append_left _).trans List.perm_middle)

/-- Distinct segments are tiled by themselves. -/
theorem tiles_segments {segments : List ℕ} (h : segments.Nodup) :
    Tiles ((segments.map fun segment => (⟨segment * 2 ^ 16, 6⟩ : Page)).map Page.block)
      (segmentBytes segments) := by
  intro x
  have hcover : cover ((segments.map fun segment => (⟨segment * 2 ^ 16, 6⟩ : Page)).map Page.block) x =
      segments.count (x / 2 ^ 16) := by
    rw [cover, List.count, List.countP_map, List.countP_map]
    refine List.countP_congr fun segment _ => ?_
    rw [Function.comp_apply, Function.comp_apply, decide_eq_true_iff, beq_iff_eq, Block.mem_def]
    simp only [Page.block, pageShift]
    omega
  rw [hcover]
  split_ifs with hmem
  · exact List.count_eq_one_of_mem h hmem
  · exact List.count_eq_zero_of_not_mem hmem

theorem conserved_memInitialize {segments : List ℕ} (h : segments.Nodup) (mem : ℕ → UInt8) :
    Conserved segments (memInitialize mem segments) := by
  obtain ⟨s, hs, hperm⟩ := foldlM_pageAdd segments (pageInitialize mem)
  have hempty : (pageInitialize mem).areas = [] := rfl
  rw [hempty, List.append_nil] at hperm
  rw [memInitialize, hs]
  refine ⟨(tiles_segments h).perm (hperm.symm.map _), fun p hp => ?_⟩
  obtain ⟨segment, -, rfl⟩ := List.mem_map.mp (hperm.mem_iff.mp hp)
  simp [Page.Aligned, pageShift]

end Pages

open StepSystem

/-- **Conservation of pages, exactly.** After `mem_initialize`, the areas that are handed out and the free
areas tile the memory along a run, if and only if each `page_alloc` takes an area of its own list, of an
order other than 0 and with memory for its `struct page`, and no `page_free` finds the magic number at the
buddy of its area. -/
theorem page_conserved_iff (segments : List ℕ) (h : segments.Nodup) (mem : ℕ → UInt8)
    (ops : List Pages.Op) :
    Always Pages.step (Pages.Conserved segments) (Pages.memInitialize mem segments) ops ↔
      Steps Pages.step Pages.Exact (Pages.memInitialize mem segments) ops := by
  refine always_iff_steps (I := fun _ => True) ?_ ?_ trivial (Pages.conserved_memInitialize h mem)
  · intro s op s' _ hconserved hexact hstep
    cases s with
    | none => exact hconserved.elim
    | some s => exact ⟨trivial, Pages.ConservedIn.step hconserved hexact hstep⟩
  · intro s op _ hconserved hexact
    cases s with
    | none => exact hconserved.elim
    | some s => exact Pages.ConservedIn.loses hconserved hexact

/-- One segment, that is handed out and taken back. -/
theorem page_conserved_segment :
    Always Pages.step (Pages.Conserved [0x2000]) (Pages.memInitialize (fun _ => 0) [0x2000])
      [.alloc 6 true, .free ⟨0x20000000, 6⟩] :=
  (page_conserved_iff [0x2000] (by decide) (fun _ => 0) [.alloc 6 true, .free ⟨0x20000000, 6⟩]).mpr
    (by decide)

/-- One segment, and a page of 1 KiB: the free areas have 62 KiB. -/
theorem not_always_conserved_alloc :
    ((run Pages.step (Pages.memInitialize (fun _ => 0) [0x2000]) [.alloc 0 true]).map fun s =>
        s.map fun s => (s.allocated, (List.range 7).map s.freeAreas)) =
      some (some ([⟨0x20000000, 0⟩], [[], [0x20000800], [0x20001000], [0x20002000], [0x20004000],
        [0x1FFF8000], []])) ∧
    ¬ Always Pages.step (Pages.Conserved [0x2000]) (Pages.memInitialize (fun _ => 0) [0x2000])
      [.alloc 0 true] := by
  refine ⟨by decide, fun h => ?_⟩
  have hinitial := h.head
  cases hs : Pages.memInitialize (fun _ => 0) [0x2000] with
  | none =>
    rw [hs] at hinitial
    exact hinitial
  | some s =>
    rw [hs] at h hinitial
    have hexact : ¬ Pages.Exact (some s) (.alloc 0 true) := by simp [Pages.Exact, maxOrder]
    obtain ⟨s', hstep, hnot⟩ := Pages.ConservedIn.loses hinitial hexact
    exact hnot (h.2 s' hstep)

end I80k.Kernel

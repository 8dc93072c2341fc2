import I80k.Kernel.PageConserve
import I80k.Lib.Loop

/-!
# The loops of `page_alloc`

`page_alloc` looks for an area on the lists from the requested order on, and splits what it finds. It goes past
the last list if all of them are empty. If it finds an area of order 0 at once, it takes the index of its
second loop below 0, to 65535. Both are uses of a list that does not exist; everything else ends, on the lists
that there are.

The function is given here by the turns of its loops, without a bound on their number.

## Main definitions

* `AllocAt`, `Pages.allocTurn`: the positions in `page_alloc`, and a turn
* `Pages.AllocBehaves`: the call returns, has used the lists only, and returns null if and only if they are empty

## Main results

* `Pages.returns_allocTurn_iff`: the loops return what `Pages.pageAlloc` computes
* `page_alloc_behaves_iff`: the states and the orders in which the call is well behaved
-/

namespace I80k.Kernel

/-- The positions in `page_alloc`: its start, and the heads of its loops. -/
inductive AllocAt
  | start (s : Pages)
  | search (zone : Option ℕ) (index : ℕ) (s : Pages)
  | split (zone index : ℕ) (s : Pages)

namespace Pages

/-- What follows a call that may go to a list that does not exist. -/
def onList {α : Type} (r : Option α) (next : α → AllocAt) : AllocAt ⊕ Option (Option Page × Pages) :=
  match r with
  | none => .inr none
  | some a => .inl (next a)

/-- The end of `page_alloc`, with an area that was found. -/
def finish (zone order : ℕ) (calloc : Bool) (s : Pages) : Option (Option Page × Pages) :=
  if calloc then some (some ⟨zone, order⟩, { s with allocated := ⟨zone, order⟩ :: s.allocated }) else none

/-- A turn of `page_alloc(order)`; the result is that of `pageAlloc`. -/
def allocTurn (order : ℕ) (calloc : Bool) : AllocAt → AllocAt ⊕ Option (Option Page × Pages)
  | .start s =>
    if maxOrder ≤ order then .inr (some (none, s))
    else onList (s.pagePop order) fun (zone, s) => .search zone order s
  | .search none index s =>
    if index < maxOrder then onList (s.pagePop (index + 1)) fun (zone, s) => .search zone (index + 1) s
    else .inr (some (none, s))
  | .search (some zone) index s => .inl (.split zone index s)
  | .split zone index s =>
    let index := toUint (index + (2 ^ 16 - 1))
    if order < index then onList (s.pagePush (pageBuddy zone index) index) (.split zone index)
    else .inr (finish zone order calloc s)

/-- The call returns, without having used a list that does not exist, and returns null if and only if the lists
from `order` on are empty. -/
def AllocBehaves (s : Pages) (order : ℕ) (calloc : Bool) : Prop :=
  ∃ r, Loop.Returns (allocTurn order calloc) (.start s) (some r) ∧
    (r.1 = none ↔ ∀ i, order ≤ i → i < maxOrder → s.freeAreas i = [])

variable {s : Pages} {order index zone : ℕ} {calloc : Bool} {r : Option (Option Page × Pages)}

/-! ## The turns, and the bounded loops -/

theorem returns_onList {α : Type} {turn : AllocAt → AllocAt ⊕ Option (Option Page × Pages)} {a : AllocAt}
    {x : Option α} {next : α → AllocAt} (h : turn a = onList x next) :
    Loop.Returns turn a r ↔ (x = none ∧ r = none) ∨ ∃ b, x = some b ∧ Loop.Returns turn (next b) r := by
  cases x with
  | none =>
    rw [Loop.returns_of_inr h]
    simp [eq_comm]
  | some b =>
    rw [Loop.returns_of_inl h]
    simp

/-- The second loop ends within as many turns as the index; an index of 0 leads it to a list that does not
exist. -/
theorem returns_split_iff (fuel : ℕ) : ∀ {index : ℕ} {s : Pages}, index < maxOrder → index < fuel →
    (Loop.Returns (allocTurn order calloc) (.split zone index s) r ↔
      (splitLoop zone order fuel index s).bind (finish zone order calloc) = r) := by
  induction fuel with
  | zero =>
    intro index s _ hfuel
    omega
  | succ fuel ih =>
    intro index s hmax hfuel
    obtain ⟨next, hnext⟩ : ∃ next, toUint (index + (2 ^ 16 - 1)) = next := ⟨_, rfl⟩
    simp only [splitLoop, hnext]
    by_cases hmore : order < next
    · have hturn : allocTurn order calloc (.split zone index s) =
          onList (s.pagePush (pageBuddy zone next) next) (.split zone next) := by
        simp only [allocTurn, hnext, if_pos hmore]
      rw [returns_onList hturn, if_pos hmore]
      cases hpush : s.pagePush (pageBuddy zone next) next with
      | none => simp [eq_comm]
      | some t =>
        -- The index is not 0, as its list exists.
        have hlist : next < maxOrder := by
          by_contra hge
          rw [pagePush, if_pos (not_lt.mp hge)] at hpush
          cases hpush
        have hlt : next < index := by
          have hmax₁ : index < 7 := hmax
          have hlist₁ : next < 7 := hlist
          rw [toUint] at hnext
          omega
        simpa using ih (s := t) hlist (by omega)
    · have hturn : allocTurn order calloc (.split zone index s) = .inr (finish zone order calloc s) := by
        simp only [allocTurn, hnext, if_neg hmore]
      rw [Loop.returns_of_inr hturn, if_neg hmore, Option.bind_some]

/-- What `pageAlloc` does after its first loop. -/
def afterSearch (order : ℕ) (calloc : Bool) : Option ℕ × ℕ × Pages → Option (Option Page × Pages)
  | (none, _, s) => some (none, s)
  | (some zone, index, s) => (splitLoop zone order maxOrder index s).bind (finish zone order calloc)

theorem pageAlloc_eq (hmax : order < maxOrder) (calloc : Bool) :
    s.pageAlloc order calloc = (s.pagePop order).bind fun found =>
      (popLoop maxOrder found.1 order found.2).bind (afterSearch order calloc) := by
  rw [pageAlloc, if_neg (not_le.mpr hmax)]
  refine congrArg (Option.bind (s.pagePop order)) (funext fun found => ?_)
  obtain ⟨zone, s⟩ := found
  refine congrArg (Option.bind (popLoop maxOrder zone order s)) (funext fun found => ?_)
  obtain ⟨zone, index, s⟩ := found
  cases zone with
  | none => rfl
  | some zone => rfl

/-- The first loop ends at the last list, or after it. -/
theorem returns_search_iff (fuel : ℕ) : ∀ {zone : Option ℕ} {index : ℕ} {s : Pages}, index < maxOrder →
    maxOrder ≤ index + fuel →
    (Loop.Returns (allocTurn order calloc) (.search zone index s) r ↔
      (popLoop fuel zone index s).bind (afterSearch order calloc) = r) := by
  induction fuel with
  | zero =>
    intro zone index s hmax hfuel
    omega
  | succ fuel ih =>
    intro zone index s hmax hfuel
    cases zone with
    | some zone =>
      have hturn : allocTurn order calloc (.search (some zone) index s) = .inl (.split zone index s) := rfl
      rw [Loop.returns_of_inl hturn, popLoop_some, Option.bind_some]
      exact returns_split_iff maxOrder hmax hmax
    | none =>
      -- `index` is increased before it is used
      have hturn : allocTurn order calloc (.search none index s) =
          onList (s.pagePop (index + 1)) fun (zone, s) => .search zone (index + 1) s := if_pos hmax
      rw [returns_onList hturn, popLoop, if_pos ⟨rfl, hmax⟩]
      cases hpop : s.pagePop (index + 1) with
      | none => simp [eq_comm]
      | some found =>
        obtain ⟨zone, t⟩ := found
        have hlt : index + 1 < maxOrder := by
          cases zone with
          | none => exact (pagePop_none hpop).1
          | some zone => exact (pagePop_some hpop).1
        have hrest : Loop.Returns (allocTurn order calloc) (.search zone (index + 1) t) r ↔ _ :=
          ih hlt (by omega)
        simpa using hrest

/-- **The loops return what `pageAlloc` computes.** -/
theorem returns_allocTurn_iff :
    Loop.Returns (allocTurn order calloc) (.start s) r ↔ s.pageAlloc order calloc = r := by
  rcases Nat.lt_or_ge order maxOrder with hmax | hmax
  · have hturn : allocTurn order calloc (.start s) =
        onList (s.pagePop order) fun (zone, s) => .search zone order s := if_neg (not_le.mpr hmax)
    rw [returns_onList hturn, pageAlloc_eq hmax]
    cases hpop : s.pagePop order with
    | none => simp [eq_comm]
    | some found =>
      obtain ⟨zone, t⟩ := found
      have hsearch : Loop.Returns (allocTurn order calloc) (.search zone order t) r ↔ _ :=
        returns_search_iff maxOrder hmax (Nat.le_add_left _ _)
      simpa using hsearch
  · have hturn : allocTurn order calloc (.start s) = .inr (some (none, s)) := if_pos hmax
    rw [Loop.returns_of_inr hturn, pageAlloc, if_pos hmax]

/-! ## Where the call is well behaved -/

/-- The first loop goes past the last list, if all lists are empty. -/
theorem popLoop_empty (fuel : ℕ) : ∀ {index : ℕ}, index < maxOrder → maxOrder ≤ index + fuel →
    (∀ i, index < i → i < maxOrder → s.freeAreas i = []) → popLoop fuel none index s = none := by
  induction fuel with
  | zero =>
    intro index hmax hfuel
    omega
  | succ fuel ih =>
    intro index hmax hfuel hempty
    rw [popLoop, if_pos ⟨rfl, hmax⟩, pagePop]
    rcases Nat.lt_or_ge (index + 1) maxOrder with hlt | hge
    · have hlist := hempty (index + 1) (by omega) hlt
      rw [if_neg (by omega), hlist]
      exact ih hlt (by omega) fun i hi => hempty i (by omega)
    · rw [if_pos hge]
      rfl

/-- It finds an area, if there is one. -/
theorem popLoop_found (fuel : ℕ) : ∀ {index : ℕ}, (∃ i, index < i ∧ i < maxOrder ∧ s.freeAreas i ≠ []) →
    maxOrder ≤ index + fuel →
    ∃ zone k t, popLoop fuel none index s = some (some zone, k, t) ∧ index < k ∧ k < maxOrder := by
  induction fuel with
  | zero =>
    rintro index ⟨i, hlt, hmax, -⟩ hfuel
    omega
  | succ fuel ih =>
    rintro index ⟨i, hlt, hmax, hne⟩ hfuel
    rw [popLoop, if_pos ⟨rfl, by omega⟩, pagePop, if_neg (by omega)]
    cases hlist : s.freeAreas (index + 1) with
    | nil =>
      have hnext : index + 1 < i := by
        refine lt_of_le_of_ne hlt fun heq => hne ?_
        rw [← heq]
        exact hlist
      obtain ⟨zone, k, t, hloop, hgt, hk⟩ := ih ⟨i, hnext, hmax, hne⟩ (by omega)
      exact ⟨zone, k, t, hloop, by omega, hk⟩
    | cons zone rest =>
      refine ⟨zone, index + 1, s.take (index + 1) zone rest, ?_, by omega, by omega⟩
      exact popLoop_some fuel zone (index + 1) _

/-- The second loop stays on the lists, below the area that was found. -/
theorem splitLoop_below (fuel : ℕ) : ∀ {index : ℕ} {s : Pages}, order < index → index < maxOrder →
    ∃ t, splitLoop zone order fuel index s = some t := by
  induction fuel with
  | zero => exact fun _ _ => ⟨_, rfl⟩
  | succ fuel ih =>
    intro index s hlt hmax
    have hmax' : index < 7 := hmax
    have hnext : toUint (index + (2 ^ 16 - 1)) = index - 1 := by
      rw [toUint]
      omega
    simp only [splitLoop, hnext]
    split_ifs with hmore
    · have hlist : ¬ maxOrder ≤ index - 1 := by omega
      rw [pagePush, if_neg hlist]
      exact ih hmore (by omega)
    · exact ⟨s, rfl⟩

/-- The call, if the own list is empty. -/
theorem pageAlloc_nil (hmax : order < maxOrder) (hlist : s.freeAreas order = []) (calloc : Bool) :
    s.pageAlloc order calloc = (popLoop maxOrder none order s).bind (afterSearch order calloc) := by
  have hpop : s.pagePop order = some (none, s) := by
    rw [pagePop, if_neg (by omega), hlist]
  rw [pageAlloc_eq hmax, hpop, Option.bind_some]

/-- The call never returns null, for an order that has a list. -/
theorem pageAlloc_ne_null (hmax : order < maxOrder) (t : Pages) : s.pageAlloc order calloc ≠ some (none, t) := by
  intro h
  cases hlist : s.freeAreas order with
  | nil =>
    rw [pageAlloc_nil hmax hlist] at h
    obtain ⟨⟨zone, index, t'⟩, hloop, h⟩ := Option.bind_eq_some_iff.mp h
    obtain ⟨zone, rfl, -, -, -⟩ := popLoop_none maxOrder hmax (Nat.le_add_left _ _) hloop
    rw [afterSearch] at h
    obtain ⟨u, -, h⟩ := Option.bind_eq_some_iff.mp h
    unfold finish at h
    split_ifs at h
    cases (Prod.mk.inj (Option.some.inj h)).1
  | cons zone rest =>
    rw [pageAlloc_cons hmax hlist] at h
    obtain ⟨u, -, h⟩ := Option.bind_eq_some_iff.mp h
    split_ifs at h
    cases (Prod.mk.inj (Option.some.inj h)).1

/-- It returns an area, if there is one and there is memory for the `struct page`, unless it finds an area of
order 0 at once. -/
theorem pageAlloc_some_iff (hmax : order < maxOrder) :
    (∃ p t, s.pageAlloc order calloc = some (some p, t)) ↔
      calloc = true ∧ (order = 0 → s.freeAreas 0 = []) ∧
        ∃ i, order ≤ i ∧ i < maxOrder ∧ s.freeAreas i ≠ [] := by
  cases hlist : s.freeAreas order with
  | cons zone rest =>
    have hne : s.freeAreas order ≠ [] := by simp [hlist]
    by_cases hcond : calloc = true ∧ 0 < order
    · obtain ⟨rfl, hpos⟩ := hcond
      have halloc := pageAlloc_cons hmax hlist true
      rw [splitLoop_exact _ hpos hmax, Option.bind_some, if_pos rfl] at halloc
      refine iff_of_true ⟨_, _, halloc⟩ ⟨rfl, fun h₀ => absurd h₀ (by omega), order, le_rfl, hmax, hne⟩
    · have hfails : order = 0 ∨ calloc = false := by
        rcases Nat.eq_zero_or_pos order with hzero | hpos
        · exact Or.inl hzero
        · exact Or.inr (Bool.eq_false_iff.mpr fun htrue => hcond ⟨htrue, hpos⟩)
      rw [pageAlloc_fails hmax hne hfails]
      refine iff_of_false (by simp) ?_
      rintro ⟨htrue, hzero, -⟩
      rcases hfails with rfl | hfalse
      · exact hne (hzero rfl)
      · rw [htrue] at hfalse
        cases hfalse
  | nil =>
    rw [pageAlloc_nil hmax hlist]
    by_cases hsome : ∃ i, order < i ∧ i < maxOrder ∧ s.freeAreas i ≠ []
    · obtain ⟨zone, k, t, hloop, hgt, hk⟩ := popLoop_found maxOrder hsome (Nat.le_add_left _ _)
      obtain ⟨u, hsplit⟩ : ∃ u, splitLoop zone order maxOrder k t = some u := splitLoop_below maxOrder hgt hk
      have hlists : ∃ i, order ≤ i ∧ i < maxOrder ∧ s.freeAreas i ≠ [] := by
        obtain ⟨i, hlt, hi⟩ := hsome
        exact ⟨i, hlt.le, hi⟩
      have hafter : afterSearch order calloc (some zone, k, t) = finish zone order calloc u := by
        rw [afterSearch, hsplit, Option.bind_some]
      rw [hloop, Option.bind_some, hafter, finish]
      cases calloc with
      | true =>
        rw [if_pos rfl]
        exact iff_of_true ⟨_, _, rfl⟩ ⟨rfl, fun h₀ => h₀ ▸ hlist, hlists⟩
      | false => exact iff_of_false (by simp) (by simp)
    · have hempty : ∀ i, order < i → i < maxOrder → s.freeAreas i = [] := by
        intro i hi hmax'
        by_contra hne
        exact hsome ⟨i, hi, hmax', hne⟩
      rw [popLoop_empty maxOrder hmax (Nat.le_add_left _ _) hempty]
      refine iff_of_false (by simp) ?_
      rintro ⟨-, -, i, hle, hi, hne⟩
      rcases hle.eq_or_lt with rfl | hlt
      · exact hne hlist
      · exact hne (hempty i hlt hi)

end Pages

/-- **Where `page_alloc` is well behaved.** With any areas on the lists, and for every order that has a list:
the call ends, uses the lists only, and returns null if and only if the lists from the order on are empty, if and
only if one of them is not empty, there is memory for the `struct page`, and the request is not for an area of
order 0 that is on its own list. -/
theorem page_alloc_behaves_iff (s : Pages) (order : ℕ) (h : order < maxOrder) (calloc : Bool) :
    s.AllocBehaves order calloc ↔
      calloc = true ∧ (order = 0 → s.freeAreas 0 = []) ∧
        ∃ i, order ≤ i ∧ i < maxOrder ∧ s.freeAreas i ≠ [] := by
  rw [← Pages.pageAlloc_some_iff h]
  constructor
  · rintro ⟨⟨p, t⟩, hreturns, -⟩
    rw [Pages.returns_allocTurn_iff] at hreturns
    cases p with
    | none => exact absurd hreturns (Pages.pageAlloc_ne_null h t)
    | some p => exact ⟨p, t, hreturns⟩
  · rintro ⟨p, t, halloc⟩
    refine ⟨(some p, t), Pages.returns_allocTurn_iff.mpr halloc, iff_of_false (by simp) fun hempty => ?_⟩
    obtain ⟨-, -, i, hle, hmax, hne⟩ := (Pages.pageAlloc_some_iff h).mp ⟨p, t, halloc⟩
    exact hne (hempty i hle hmax)

/-- A segment of order 6, that is split for an area of order 2. -/
theorem page_alloc_behaves_split :
    (Pages.mk (Function.update (fun _ => []) 6 [0x20000000]) [] fun _ => 0).AllocBehaves 2 true := by
  rw [page_alloc_behaves_iff _ 2 (by decide) true]
  exact ⟨rfl, fun h => absurd h (by decide), 6, by decide, by decide, by simp⟩

/-- Without free areas the call uses `free_areas[7]`; with one of order 0 it uses `free_areas[65535]`. -/
theorem not_allocBehaves_empty :
    (∀ i < 7, (Pages.pageInitialize fun _ => 0).freeAreas i = []) ∧
      ¬ (Pages.pageInitialize fun _ => 0).AllocBehaves 3 true ∧
      ¬ (Pages.mk (Function.update (fun _ => []) 0 [0x20000000]) [] fun _ => 0).AllocBehaves 0 true := by
  have hnone : (Pages.pageInitialize fun _ => 0).pageAlloc 3 true = none := by
    exact Option.map_eq_none_iff.mp (show Option.map (fun _ => ()) _ = none by decide)
  refine ⟨fun _ _ => rfl, ?_, ?_⟩
  · rintro ⟨r, hreturns, -⟩
    rw [Pages.returns_allocTurn_iff, hnone] at hreturns
    cases hreturns
  · rintro ⟨r, hreturns, -⟩
    rw [Pages.returns_allocTurn_iff, Pages.pageAlloc_fails (by decide) (by simp) (Or.inl rfl)] at hreturns
    cases hreturns

end I80k.Kernel

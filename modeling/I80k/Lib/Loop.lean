import Mathlib

/-!
# Loops

A loop is given by its turn, that leads from a state to the next one or to a result. If the loop can only
get to finitely many states, it returns if and only if it never comes back to a state that it has left;
and it returns within as many turns as there are states.

## Main definitions

* `Loop.Visits`: the states that a loop gets to
* `Loop.Returns`: the result of a loop
* `Loop.ComesBack`: the loop gets to a state twice
* `Loop.within`: the loop, for a bounded number of turns

## Main results

* `Loop.exists_returns_iff`: a loop returns if and only if it does not come back
* `Loop.within_eq_some_iff`: the number of states is a bound on the number of turns
-/

namespace Loop

open Relation

variable {S R : Type} (turn : S → S ⊕ R)

/-- A turn leads from one state to another. -/
def Next (s t : S) : Prop := turn s = .inl t

/-- The loop gets from one state to another, in finitely many turns. -/
def Visits : S → S → Prop := ReflTransGen (Next turn)

/-- The loop has the result, after finitely many turns. -/
def Returns (s : S) (r : R) : Prop := ∃ t, Visits turn s t ∧ turn t = .inr r

/-- The loop gets to a state twice. -/
def ComesBack (s : S) : Prop := ∃ t, Visits turn s t ∧ TransGen (Next turn) t t

/-- The result of the loop within `fuel` turns. -/
def within : ℕ → S → Option R
  | 0, _ => none
  | fuel + 1, s =>
    match turn s with
    | .inl t => within fuel t
    | .inr r => some r

variable {turn}

theorem returns_of_inl {s t : S} {r : R} (h : turn s = .inl t) : Returns turn s r ↔ Returns turn t r := by
  constructor
  · rintro ⟨u, hsu, hu⟩
    rcases hsu.cases_head with rfl | ⟨t', hst', ht'u⟩
    · rw [h] at hu
      exact absurd hu (by simp)
    · obtain rfl : t = t' := Sum.inl.inj (h.symm.trans hst')
      exact ⟨u, ht'u, hu⟩
  · rintro ⟨u, htu, hu⟩
    exact ⟨u, htu.head h, hu⟩

theorem returns_of_inr {s : S} {r r' : R} (h : turn s = .inr r') : Returns turn s r ↔ r' = r := by
  constructor
  · rintro ⟨u, hsu, hu⟩
    rcases hsu.cases_head with rfl | ⟨t, hst, -⟩
    · exact Sum.inr.inj (h.symm.trans hu)
    · exact absurd (h.symm.trans hst) (by simp)
  · rintro rfl
    exact ⟨s, .refl, h⟩

/-- The result does not depend on where the loop is looked at. -/
theorem returns_iff_of_visits {s t : S} {r : R} (h : Visits turn s t) :
    Returns turn s r ↔ Returns turn t r := by
  induction h with
  | refl => exact Iff.rfl
  | tail _ hbc ih => exact ih.trans (returns_of_inl hbc)

/-- A loop has one result at most. -/
theorem Returns.iff_eq {s : S} {r r' : R} (h : Returns turn s r) : Returns turn s r' ↔ r = r' := by
  obtain ⟨t, hst, ht⟩ := h
  rw [returns_iff_of_visits hst, returns_of_inr ht]

/-- **Induction on a loop that returns**, from its last turn back to its first. -/
@[elab_as_elim]
theorem Returns.induction {r : R} {motive : ∀ s, Returns turn s r → Prop}
    (last : ∀ s (hs : turn s = .inr r), motive s ⟨s, .refl, hs⟩)
    (next : ∀ s t (hst : turn s = .inl t) (ht : Returns turn t r),
      motive t ht → motive s ((returns_of_inl hst).mpr ht)) {s : S} (h : Returns turn s r) : motive s h := by
  obtain ⟨u, hsu, hu⟩ := h
  induction hsu using ReflTransGen.head_induction_on with
  | refl => exact last u hu
  | head hst htu ih => exact next _ _ hst ⟨u, htu, hu⟩ ih

/-- A loop that returns ends from every state it gets to. -/
theorem Returns.acc {s : S} {r : R} (h : Returns turn s r) : Acc (flip (Next turn)) s := by
  induction h using Returns.induction with
  | last s hs => exact ⟨s, fun t ht => absurd (hs.symm.trans ht) (by simp)⟩
  | next s t hst _ ih =>
    refine ⟨s, fun t' ht' => ?_⟩
    obtain rfl : t = t' := Sum.inl.inj (hst.symm.trans ht')
    exact ih

theorem Returns.not_comesBack {s : S} {r : R} (h : Returns turn s r) : ¬ ComesBack turn s := by
  rintro ⟨t, hst, hback⟩
  have hacc : Acc (flip (Next turn)) t := by
    clear hback
    induction hst with
    | refl => exact h.acc
    | tail _ hbc ih => exact ih.inv hbc
  -- no state is below itself
  have hself : ∀ u, Acc (TransGen (flip (Next turn))) u → ¬ TransGen (flip (Next turn)) u u := by
    intro u hu
    induction hu with
    | intro u _ ih => exact fun huu => ih u huu huu
  exact hself t hacc.transGen (transGen_swap.mpr hback)

theorem exists_returns {s : S} (hfin : {t | Visits turn s t}.Finite) (h : ¬ ComesBack turn s) :
    ∃ r, Returns turn s r := by
  have : Finite {t // Visits turn s t} := hfin.to_subtype
  -- the states that the loop gets to, each one above those after it
  let Later (a b : {t // Visits turn s t}) : Prop := TransGen (Next turn) b.1 a.1
  have : IsTrans _ Later := ⟨fun _ _ _ hab hbc => hbc.trans hab⟩
  have : Std.Irrefl Later := ⟨fun a ha => h ⟨a.1, a.2, ha⟩⟩
  have hwf : WellFounded Later := Finite.wellFounded_of_trans_of_irrefl _
  have hall : ∀ a : {t // Visits turn s t}, ∃ r, Returns turn a.1 r := by
    intro a
    induction a using hwf.induction with
    | _ a ih =>
      cases ha : turn a.1 with
      | inr r => exact ⟨r, (returns_of_inr ha).mpr rfl⟩
      | inl t =>
        obtain ⟨r, hr⟩ := ih ⟨t, a.2.tail ha⟩ (.single ha)
        exact ⟨r, (returns_of_inl ha).mpr hr⟩
  exact hall ⟨s, .refl⟩

/-- **A loop through finitely many states** returns if and only if it does not come back to one. -/
theorem exists_returns_iff {s : S} (hfin : {t | Visits turn s t}.Finite) :
    (∃ r, Returns turn s r) ↔ ¬ ComesBack turn s :=
  ⟨fun ⟨_, h⟩ => h.not_comesBack, exists_returns hfin⟩

theorem returns_of_within {n : ℕ} {s : S} {r : R} (h : within turn n s = some r) : Returns turn s r := by
  induction n generalizing s with
  | zero => exact absurd h (by simp [within])
  | succ n ih =>
    rw [within] at h
    cases hs : turn s with
    | inl t =>
      rw [hs] at h
      exact (returns_of_inl hs).mpr (ih h)
    | inr r' =>
      rw [hs] at h
      exact (returns_of_inr hs).mpr (Option.some.inj h)

/-- Each turn of a loop that returns leaves one state behind for good. -/
theorem Returns.within {s : S} {r : R} (h : Returns turn s r) :
    ∀ {F : Finset S} {n : ℕ}, (∀ t, Visits turn s t → t ∈ F) → F.card ≤ n →
      Loop.within turn n s = some r := by
  classical
  induction h using Returns.induction with
  | last s hs =>
    intro F n hF hn
    have hcard : 0 < F.card := Finset.card_pos.mpr ⟨s, hF s .refl⟩
    obtain ⟨n, rfl⟩ : ∃ m, n = m + 1 := ⟨n - 1, by omega⟩
    rw [Loop.within, hs]
  | next s t hst ht ih =>
    intro F n hF hn
    have hmem : s ∈ F := hF s .refl
    have hcard := Finset.card_erase_add_one hmem
    obtain ⟨n, rfl⟩ : ∃ m, n = m + 1 := ⟨n - 1, by omega⟩
    rw [Loop.within, hst]
    refine ih (F := F.erase s) (fun u hu => ?_) (by omega)
    refine Finset.mem_erase.mpr ⟨?_, hF u (hu.head hst)⟩
    rintro rfl
    exact ((returns_of_inl hst).mpr ht).not_comesBack ⟨u, .refl, .head' hst hu⟩

/-- The number of states bounds the number of turns. -/
theorem within_eq_some_iff {s : S} {r : R} {F : Finset S} {n : ℕ} (hF : ∀ t, Visits turn s t → t ∈ F)
    (hn : F.card ≤ n) : within turn n s = some r ↔ Returns turn s r :=
  ⟨returns_of_within, fun h => h.within hF hn⟩

end Loop

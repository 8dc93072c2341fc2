import Mathlib

/-!
# States with a log

A state writes down what is done in it. The steps of a program extend the log, and what they are allowed to do is a
property of the entries that they add.

## Main definitions

* `Extends log P s s'`: the log of `s'` is that of `s`, and then entries with the property `P`

## Main results

* `Extends.trans`, `Extends.foldl`: steps one after the other, and in a loop
* `Extends.mem_or`: an entry is an old one, or has the property
-/

namespace Logged

variable {S A : Type} {log : S → List A} {P : A → Prop} {s s' t : S}

/-- The log of `s'` is that of `s`, and then entries with the property. -/
def Extends (log : S → List A) (P : A → Prop) (s s' : S) : Prop := ∃ l, log s' = log s ++ l ∧ ∀ a ∈ l, P a

namespace Extends

theorem of_eq (h : log s' = log s) : Extends log P s s' := ⟨[], by rw [h, List.append_nil], by simp⟩

/-- One entry is added. -/
theorem of_snoc {a : A} (h : log s' = log s ++ [a]) (ha : P a) : Extends log P s s' :=
  ⟨[a], h, fun _ hb => List.mem_singleton.mp hb ▸ ha⟩

theorem trans (h : Extends log P s s') (h' : Extends log P s' t) : Extends log P s t := by
  obtain ⟨l, hl, hp⟩ := h
  obtain ⟨l', hl', hp'⟩ := h'
  refine ⟨l ++ l', by rw [hl', hl, List.append_assoc], fun a ha => ?_⟩
  exact (List.mem_append.mp ha).elim (hp a) (hp' a)

/-- A loop over a list. -/
theorem foldl {ι : Type} {step : S → ι → S} {l : List ι} (h : ∀ i ∈ l, ∀ s, Extends log P s (step s i)) :
    Extends log P s (l.foldl step s) := by
  induction l generalizing s with
  | nil => exact .of_eq rfl
  | cons i l ih =>
    have hfirst : Extends log P s (step s i) := h i List.mem_cons_self s
    exact hfirst.trans (ih fun j hj => h j (List.mem_cons_of_mem i hj))

/-- What is written down stays. -/
theorem mem {a : A} (h : Extends log P s s') (ha : a ∈ log s) : a ∈ log s' := by
  obtain ⟨l, hl, -⟩ := h
  rw [hl]
  exact List.mem_append_left l ha

/-- An entry is an old one, or has the property. -/
theorem mem_or {a : A} (h : Extends log P s s') (ha : a ∈ log s') : a ∈ log s ∨ P a := by
  obtain ⟨l, hl, hp⟩ := h
  rw [hl] at ha
  exact (List.mem_append.mp ha).imp_right (hp a)

end Extends

end Logged

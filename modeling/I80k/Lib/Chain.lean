import Mathlib

/-!
# Singly linked lists in memory

A singly linked list is the chain of cells met from its head by following the `next` field until
the null address. The field of a cell may be shared storage, so what a list needs is that nobody
else writes the fields of its cells.

## Main definitions

* `Chain nil next h xs`: from `h`, the field `next` leads through the cells `xs` to `nil`

## Main results

* `Chain.congr`: a chain depends on the fields of its own cells only
* `Chain.push`: a cell put in front
* `Chain.unlink`: a cell taken out behind its predecessor
-/

namespace LinkedChain

variable {α : Type} {null : α} {next : α → α}

/-- From `h`, the field `next` leads through the cells `xs` to `null`. -/
def Chain (null : α) (next : α → α) : α → List α → Prop
  | h, [] => h = null
  | h, x :: xs => h = x ∧ x ≠ null ∧ Chain null next (next x) xs

@[simp] theorem chain_nil {h : α} : Chain null next h [] ↔ h = null := Iff.rfl

theorem Chain.ne_null {h : α} {xs : List α} (hc : Chain null next h xs) {x : α} (hx : x ∈ xs) :
    x ≠ null := by
  induction xs generalizing h with
  | nil => cases hx
  | cons y ys ih =>
    rcases List.mem_cons.mp hx with rfl | hx
    · exact hc.2.1
    · exact ih hc.2.2 hx

/-- A chain depends on the fields of its own cells only. -/
theorem Chain.congr {next' : α → α} {h : α} {xs : List α} (hc : Chain null next h xs)
    (he : ∀ x ∈ xs, next' x = next x) : Chain null next' h xs := by
  induction xs generalizing h with
  | nil => exact hc
  | cons y ys ih =>
    refine ⟨hc.1, hc.2.1, ?_⟩
    rw [he y List.mem_cons_self]
    exact ih hc.2.2 fun x hx => he x (List.mem_cons_of_mem y hx)

/-- The cells of a chain are determined by its head. -/
theorem Chain.unique {h : α} {xs ys : List α} (hx : Chain null next h xs)
    (hy : Chain null next h ys) : xs = ys := by
  induction xs generalizing h ys with
  | nil =>
    cases ys with
    | nil => rfl
    | cons y ys => exact absurd (hy.1.symm.trans hx) hy.2.1
  | cons x xs ih =>
    cases ys with
    | nil => exact absurd (hx.1.symm.trans hy) hx.2.1
    | cons y ys =>
      obtain rfl : x = y := hx.1.symm.trans hy.1
      rw [ih hx.2.2 hy.2.2]

/-- The field of a cell is the next cell. -/
theorem Chain.next_eq {h p a : α} {xs ys : List α} (hc : Chain null next h (xs ++ p :: a :: ys)) :
    next p = a := by
  induction xs generalizing h with
  | nil => exact hc.2.2.1
  | cons x xs ih => exact ih hc.2.2

variable [DecidableEq α]

/-- A cell outside of the chain put in front of it. -/
theorem Chain.push {h a : α} {xs : List α} (hc : Chain null next h xs) (ha : a ≠ null)
    (hx : a ∉ xs) : Chain null (Function.update next a h) a (a :: xs) := by
  refine ⟨rfl, ha, ?_⟩
  rw [Function.update_self]
  refine hc.congr fun x hx' => Function.update_of_ne ?_ _ _
  rintro rfl
  exact hx hx'

/-- A cell taken out of the chain behind its predecessor `p`. -/
theorem Chain.unlink {h p a : α} {xs ys : List α}
    (hc : Chain null next h (xs ++ p :: a :: ys)) (hn : (xs ++ p :: a :: ys).Nodup) :
    Chain null (Function.update next p (next a)) h (xs ++ p :: ys) := by
  induction xs generalizing h with
  | nil =>
    obtain ⟨hp, hp', -, -, hc⟩ := hc
    refine ⟨hp, hp', ?_⟩
    rw [Function.update_self]
    refine hc.congr fun x hx => Function.update_of_ne ?_ _ _
    rintro rfl
    exact (List.nodup_cons.mp hn).1 (List.mem_cons_of_mem a hx)
  | cons x xs ih =>
    have hn' : (xs ++ p :: a :: ys).Nodup := (List.nodup_cons.mp hn).2
    have hxp : x ≠ p := by
      rintro rfl
      exact (List.nodup_cons.mp hn).1 (List.mem_append_right xs List.mem_cons_self)
    refine ⟨hc.1, hc.2.1, ?_⟩
    rw [Function.update_of_ne hxp]
    exact ih hc.2.2 hn'

end LinkedChain

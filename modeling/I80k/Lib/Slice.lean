import Mathlib

/-!
# Slices of a flat array

A range of an array is read as a slice and replaced by a splice. Ranges next to each other compose:
two reads give the slice of the joint range, and two writes are one splice of the joint data. A write
of part of a block, through a copy of the block that is written back whole, is the splice of that part
only.

## Main definitions

* `slice l i n`: the `n` elements of `l` from index `i` on
* `splice l i a`: the array `l` with the elements `a` from index `i` on

## Main results

* `slice_append_slice`, `splice_splice`: ranges next to each other
* `splice_slice_splice`: reading a block, changing part of it and writing it back
-/

namespace FlatArray

variable {α : Type}

/-- The `n` elements from index `i` on. -/
def slice (l : List α) (i n : ℕ) : List α := (l.drop i).take n

/-- The array with other elements from index `i` on. -/
def splice (l : List α) (i : ℕ) (a : List α) : List α := l.take i ++ a ++ l.drop (i + a.length)

@[simp] theorem slice_zero_length (l : List α) (i : ℕ) : slice l i 0 = [] := by
  simp [slice]

@[simp] theorem splice_nil (l : List α) (i : ℕ) : splice l i [] = l := by
  simp [splice]

theorem length_slice {l : List α} {i n : ℕ} (h : i + n ≤ l.length) : (slice l i n).length = n := by
  simp only [slice, List.length_take, List.length_drop]
  omega

theorem length_splice {l a : List α} {i : ℕ} (h : i + a.length ≤ l.length) :
    (splice l i a).length = l.length := by
  simp only [splice, List.length_append, List.length_take, List.length_drop]
  omega

theorem slice_append_slice (l : List α) (i m n : ℕ) :
    slice l i m ++ slice l (i + m) n = slice l i (m + n) := by
  rw [slice, slice, slice, ← List.drop_drop, List.take_add]

theorem slice_slice {l : List α} {i j m n : ℕ} (h : j + n ≤ m) :
    slice (slice l i m) j n = slice l (i + j) n := by
  rw [slice, slice, slice, List.drop_take, List.take_take, List.drop_drop, min_eq_left (by omega)]

theorem splice_slice_all {l a : List α} (h : l.length = a.length) : splice l 0 a = a := by
  rw [splice, List.take_zero, List.nil_append, Nat.zero_add, ← h, List.drop_length, List.append_nil]

/-- Writing next to what was written before. -/
theorem splice_splice {l a b : List α} {i : ℕ} (h : i ≤ l.length) :
    splice (splice l i a) (i + a.length) b = splice l i (a ++ b) := by
  have hi : (l.take i ++ a).length = i + a.length := by
    rw [List.length_append, List.length_take, min_eq_left h]
  have htake : (splice l i a).take (i + a.length) = l.take i ++ a := by
    rw [splice, List.take_append_of_le_length hi.ge, ← hi, List.take_length]
  have hdrop : (splice l i a).drop (i + a.length + b.length) = l.drop (i + (a ++ b).length) := by
    rw [splice, List.drop_append, hi, List.drop_eq_nil_of_le (by omega), List.nil_append,
      List.drop_drop, List.length_append]
    congr 1
    omega
  rw [splice, htake, hdrop, splice]
  simp only [List.append_assoc]

theorem take_splice {l a : List α} : (splice l 0 a).take a.length = a := by
  simp [splice]

theorem drop_splice {l a : List α} : (splice l 0 a).drop a.length = l.drop a.length := by
  simp [splice]

/-- A block that is read, changed in part and written back. -/
theorem splice_slice_splice {l a : List α} {i j n : ℕ} (ha : j + a.length ≤ n) (hl : i + n ≤ l.length) :
    splice l i (splice (slice l i n) j a) = splice l (i + j) a := by
  have hlen := length_slice hl
  have htake : l.take (i + j) = l.take i ++ (slice l i n).take j := by
    rw [List.take_add, slice, List.take_take, min_eq_left (by omega)]
  have hdrop : l.drop (i + j + a.length) = (slice l i n).drop (j + a.length) ++ l.drop (i + n) := by
    have hsplit := List.take_append_drop (n - (j + a.length)) (l.drop (i + (j + a.length)))
    rw [List.drop_drop, show i + (j + a.length) + (n - (j + a.length)) = i + n by omega] at hsplit
    rw [slice, List.drop_take, List.drop_drop, hsplit, Nat.add_assoc]
  have hback : (splice (slice l i n) j a).length = n := by rw [length_splice (by omega), hlen]
  rw [splice, hback, splice, splice, htake, hdrop]
  simp only [List.append_assoc]

end FlatArray

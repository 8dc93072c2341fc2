import Mathlib

/-!
# Cyclic redundancy checks

A register of `w` bits takes a message bit by bit: it moves up, and the polynomial is subtracted if a one falls out
of it. All of this is linear over exclusive or, so that what a change of the message does to the check is the check
of the change. A polynomial whose last coefficient is one makes a move reversible, and then the check of
anything that fits into the register is not zero, wherever in the message it stands.

## Main definitions

* `shift`, `bit`: a move of the register, and a move that takes a bit
* `feed`: a message of bits
* `top`: bits at the upper end of the register
* `bitsOf`: the bits of a word
* `Burst`: bits that are all zero but for a window of a given length
* `odd`: bits of which an odd number are one

## Main results

* `feed_xor`: the check of a sum is the sum of the checks
* `feed_eq_shift`: as many bits as fit into the register could all have been put there before it moves
* `feed_bitsOf_eq_zero_iff`: a message has its check behind it exactly if the check of both is zero
* `feed_burst_ne_zero`: the check of a burst that is not longer than the register is not zero
* `feed_ne_of_burst`: two messages that differ by such a burst have different checks
* `feed_ne_of_odd`: so have two that differ in an odd number of bits, if the polynomial is one of `x + 1`
-/

namespace Crc

variable {w : ℕ} (poly : BitVec w)

/-- The register moves up by one. -/
def shift (c : BitVec w) : BitVec w := if c.msb then c <<< 1 ^^^ poly else c <<< 1

/-- A bit at the upper end of the register. -/
def msbOf (w : ℕ) (b : Bool) : BitVec w := if b then BitVec.twoPow w (w - 1) else 0

/-- One bit of the message. -/
def bit (c : BitVec w) (b : Bool) : BitVec w := shift poly (c ^^^ msbOf w b)

/-- A message. -/
def feed (c : BitVec w) (bits : List Bool) : BitVec w := bits.foldl (bit poly) c

@[simp] theorem feed_nil (c : BitVec w) : feed poly c [] = c := rfl

@[simp] theorem feed_cons (c : BitVec w) (b : Bool) (bits : List Bool) :
    feed poly c (b :: bits) = feed poly (bit poly c b) bits := rfl

theorem feed_append (c : BitVec w) (xs ys : List Bool) :
    feed poly c (xs ++ ys) = feed poly (feed poly c xs) ys := List.foldl_append

/-! ## Linearity -/

@[simp] theorem shift_zero : shift poly 0 = 0 := by simp [shift]

theorem shift_xor (a b : BitVec w) : shift poly (a ^^^ b) = shift poly a ^^^ shift poly b := by
  have hcancel : ∀ x y : BitVec w, x ^^^ poly ^^^ (y ^^^ poly) = x ^^^ y := by
    intro x y
    rw [BitVec.xor_assoc x, BitVec.xor_comm y, ← BitVec.xor_assoc poly, BitVec.xor_self, BitVec.zero_xor]
  unfold shift
  rw [BitVec.msb_xor, BitVec.shiftLeft_xor_distrib]
  cases a.msb <;> cases b.msb
  · simp
  · simp [BitVec.xor_assoc]
  · simp only [Bool.true_xor, Bool.not_false, if_true, Bool.false_eq_true, if_false]
    rw [BitVec.xor_assoc, BitVec.xor_assoc, BitVec.xor_comm poly]
  · simp [hcancel]

theorem msbOf_xor (a b : Bool) : msbOf w (a ^^ b) = msbOf w a ^^^ msbOf w b := by
  cases a <;> cases b <;> simp [msbOf]

theorem bit_xor (c d : BitVec w) (a b : Bool) :
    bit poly (c ^^^ d) (a ^^ b) = bit poly c a ^^^ bit poly d b := by
  rw [bit, bit, bit, ← shift_xor, msbOf_xor]
  congr 1
  ac_rfl

/-- **Linearity.** The check of a sum of messages is the sum of their checks. -/
theorem feed_xor (c d : BitVec w) {xs ys : List Bool} (hlen : xs.length = ys.length) :
    feed poly (c ^^^ d) (List.zipWith (· ^^ ·) xs ys) = feed poly c xs ^^^ feed poly d ys := by
  induction xs generalizing c d ys with
  | nil =>
    rw [List.length_nil, eq_comm, List.length_eq_zero_iff] at hlen
    subst hlen
    rfl
  | cons x xs ih =>
    cases ys with
    | nil => simp at hlen
    | cons y ys =>
      rw [List.zipWith_cons_cons, feed_cons, feed_cons, feed_cons, bit_xor]
      exact ih _ _ (by simpa using hlen)

/-! ## Bits in the register -/

/-- Bits at the upper end of the register, the first one uppermost. -/
def top (w : ℕ) : List Bool → BitVec w
  | [] => 0
  | b :: bits => msbOf w b ^^^ top w bits >>> 1

theorem getLsbD_msbOf {i : ℕ} (hi : i < w) (b : Bool) : (msbOf w b).getLsbD i = (b && i == w - 1) := by
  cases b
  · simp [msbOf]
  · simp only [msbOf, if_true, BitVec.getLsbD_twoPow, Bool.true_and, beq_eq_decide]
    rw [decide_eq_true (by omega : w - 1 < w), Bool.true_and]
    exact decide_eq_decide.mpr eq_comm

theorem getLsbD_top {i : ℕ} (hi : i < w) (bits : List Bool) :
    (top w bits).getLsbD i = bits.getD (w - 1 - i) false := by
  induction bits generalizing i with
  | nil => simp [top]
  | cons b bits ih =>
    rw [top, BitVec.getLsbD_xor, getLsbD_msbOf hi, BitVec.getLsbD_ushiftRight, Nat.add_comm 1]
    by_cases hlast : i = w - 1
    · -- the first bit
      have hge : w ≤ i + 1 := by omega
      rw [BitVec.getLsbD_of_ge _ _ hge, show w - 1 - i = 0 by omega]
      simp [hlast]
    · rw [ih (by omega), show w - 1 - i = w - 1 - (i + 1) + 1 by omega, List.getD_cons_succ,
        beq_eq_false_iff_ne.mpr hlast, Bool.and_false, Bool.false_xor]

/-- Bits that leave the lowest one free. -/
theorem top_low {bits : List Bool} (hlen : bits.length < w) : (top w bits).getLsbD 0 = false := by
  rw [getLsbD_top (by omega), List.getD_eq_default _ _ (by omega)]

theorem top_ne_zero {bits : List Bool} (hlen : bits.length ≤ w) (h : true ∈ bits) : top w bits ≠ 0 := by
  obtain ⟨i, hi, htrue⟩ := List.getElem_of_mem h
  intro hzero
  have hbit := getLsbD_top (w := w) (i := w - 1 - i) (by omega) bits
  rw [hzero, show w - 1 - (w - 1 - i) = i by omega, List.getD_eq_getElem _ _ hi, htrue] at hbit
  simp at hbit

/-- The bits of a word, the uppermost one first. -/
def bitsOf {n : ℕ} (v : BitVec n) : List Bool := (List.range n).map v.getMsbD

@[simp] theorem length_bitsOf {n : ℕ} (v : BitVec n) : (bitsOf v).length = n := by simp [bitsOf]

theorem getD_bitsOf {n i : ℕ} (v : BitVec n) : (bitsOf v).getD i false = v.getMsbD i := by
  by_cases hi : i < n
  · rw [List.getD_eq_getElem _ _ (by simpa using hi)]
    simp [bitsOf]
  · rw [List.getD_eq_default _ _ (by simpa using hi), BitVec.getMsbD_of_ge _ _ (by omega)]

/-- A word that is not longer than the register. -/
theorem top_bitsOf {n : ℕ} (hn : n ≤ w) (v : BitVec n) : top w (bitsOf v) = v.setWidth w <<< (w - n) := by
  apply BitVec.eq_of_getLsbD_eq
  intro i hi
  rw [getLsbD_top hi, getD_bitsOf, BitVec.getLsbD_shiftLeft, BitVec.getLsbD_setWidth, BitVec.getMsbD]
  by_cases hlow : i < w - n
  · simp [hlow, show ¬ w - 1 - i < n by omega]
  · simp [hlow, hi, show w - 1 - i < n by omega, show i - (w - n) < w by omega,
      show n - 1 - (w - 1 - i) = i - (w - n) by omega]

theorem bitsOf_append {m n : ℕ} (u : BitVec m) (v : BitVec n) : bitsOf (u ++ v) = bitsOf u ++ bitsOf v := by
  apply List.ext_getElem?
  intro i
  by_cases hi : i < m
  · rw [List.getElem?_append_left (by simpa using hi)]
    simp [bitsOf, hi, show i < m + n by omega, BitVec.getMsbD_append]
  · rw [List.getElem?_append_right (by simpa using hi), length_bitsOf]
    by_cases hi' : i < m + n
    · simp [bitsOf, hi, hi', BitVec.getMsbD_append, show i - m < n by omega]
    · simp [bitsOf, hi', show ¬ i - m < n by omega]

/-- Nothing falls out. -/
theorem shift_ushiftRight {x : BitVec w} (hx : x.getLsbD 0 = false) : shift poly (x >>> 1) = x := by
  have hmsb : (x >>> 1).msb = false := by
    rw [BitVec.msb_eq_getLsbD_last, BitVec.getLsbD_ushiftRight]
    exact BitVec.getLsbD_of_ge _ _ (by omega)
  rw [shift, hmsb, if_neg (by simp)]
  apply BitVec.eq_of_getLsbD_eq
  intro i hi
  rw [BitVec.getLsbD_shiftLeft]
  cases i with
  | zero => simp [hx]
  | succ i => simp [hi, Nat.add_comm 1]

/-- **Bits that fit** into the register could all have been put there before it moves. -/
theorem feed_eq_shift (c : BitVec w) {bits : List Bool} (hlen : bits.length ≤ w) :
    feed poly c bits = (shift poly)^[bits.length] (c ^^^ top w bits) := by
  induction bits generalizing c with
  | nil => simp [top]
  | cons b bits ih =>
    rw [List.length_cons] at hlen
    have hrest : shift poly (top w bits >>> 1) = top w bits := shift_ushiftRight poly (top_low (by omega))
    rw [feed_cons, ih _ (by omega), List.length_cons, Function.iterate_succ_apply, top, bit, ← BitVec.xor_assoc,
      shift_xor poly (c ^^^ msbOf w b), hrest]

/-! ## Bursts -/

/-- Bits that are zero outside of a window of `n` of them, and not all zero. -/
def Burst (n : ℕ) (bits : List Bool) : Prop :=
  ∃ p q : ℕ, ∃ window : List Bool, window.length ≤ n ∧ true ∈ window ∧
    bits = List.replicate p false ++ window ++ List.replicate q false

@[simp] theorem bit_false (c : BitVec w) : bit poly c false = shift poly c := by simp [bit, msbOf]

theorem feed_replicate_false (c : BitVec w) (n : ℕ) :
    feed poly c (List.replicate n false) = (shift poly)^[n] c := by
  induction n generalizing c with
  | zero => rfl
  | succ n ih =>
    rw [List.replicate_succ, feed_cons, bit_false, ih, Function.iterate_succ_apply]

variable {poly}

/-- The move is reversible. -/
theorem shift_ne_zero (hpoly : poly.getLsbD 0 = true) {c : BitVec w} (hc : c ≠ 0) : shift poly c ≠ 0 := by
  intro hzero
  unfold shift at hzero
  cases hmsb : c.msb with
  | true =>
    rw [hmsb, if_pos rfl] at hzero
    have hlow := congrArg (BitVec.getLsbD · 0) hzero
    simp [hpoly] at hlow
  | false =>
    rw [hmsb, if_neg (by simp)] at hzero
    apply hc
    ext i hi
    by_cases hlast : i = w - 1
    · rw [BitVec.msb_eq_getLsbD_last, BitVec.getLsbD_eq_getElem (by omega)] at hmsb
      simpa [hlast] using hmsb
    · have hbit := congrArg (BitVec.getLsbD · (i + 1)) hzero
      simpa [show i + 1 < w by omega] using hbit

theorem iterate_shift_ne_zero (hpoly : poly.getLsbD 0 = true) {c : BitVec w} (hc : c ≠ 0) (n : ℕ) :
    (shift poly)^[n] c ≠ 0 := by
  induction n with
  | zero => exact hc
  | succ n ih =>
    rw [Function.iterate_succ_apply']
    exact shift_ne_zero hpoly ih

/-- **The check of a message and its check** is zero, and of no other one. -/
theorem feed_bitsOf_eq_zero_iff (hpoly : poly.getLsbD 0 = true) {c k : BitVec w} :
    feed poly c (bitsOf k) = 0 ↔ c = k := by
  have htop : top w (bitsOf k) = k := by simp [top_bitsOf le_rfl]
  rw [feed_eq_shift poly c (length_bitsOf k).le, htop]
  constructor
  · intro hzero
    by_contra hne
    have hsum : c ^^^ k ≠ 0 := fun hsum => hne (BitVec.xor_eq_zero_iff.mp hsum)
    exact iterate_shift_ne_zero hpoly hsum _ hzero
  · rintro rfl
    rw [BitVec.xor_self]
    exact Function.iterate_fixed (shift_zero poly) _

/-- **The check of a burst** that fits into the register is not zero. -/
theorem feed_burst_ne_zero (hpoly : poly.getLsbD 0 = true) {bits : List Bool} (h : Burst w bits) :
    feed poly 0 bits ≠ 0 := by
  obtain ⟨p, q, window, hlen, hmem, rfl⟩ := h
  have hbefore : (shift poly)^[p] (0 : BitVec w) = 0 := Function.iterate_fixed (shift_zero poly) p
  have hsum : (0 : BitVec w) ^^^ top w window = top w window := BitVec.zero_xor
  rw [feed_append, feed_append, feed_replicate_false, feed_replicate_false, hbefore, feed_eq_shift poly 0 hlen, hsum]
  exact iterate_shift_ne_zero hpoly (iterate_shift_ne_zero hpoly (top_ne_zero hlen hmem) _) q

/-- **Bursts are noticed.** Two messages that differ by a burst have different checks. -/
theorem feed_ne_of_burst (hpoly : poly.getLsbD 0 = true) (c : BitVec w) {xs ys : List Bool}
    (hlen : xs.length = ys.length) (h : Burst w (List.zipWith (· ^^ ·) xs ys)) :
    feed poly c xs ≠ feed poly c ys := by
  intro heq
  have hsum := feed_xor poly c c hlen
  rw [BitVec.xor_self, heq, BitVec.xor_self] at hsum
  exact feed_burst_ne_zero hpoly h hsum

/-! ## Parity -/

/-- An odd number of the bits are one. -/
def odd (bits : List Bool) : Bool := bits.foldr (· ^^ ·) false

@[simp] theorem odd_nil : odd [] = false := rfl

@[simp] theorem odd_cons (b : Bool) (bits : List Bool) : odd (b :: bits) = (b ^^ odd bits) := rfl

@[simp] theorem odd_append (xs ys : List Bool) : odd (xs ++ ys) = (odd xs ^^ odd ys) := by
  induction xs with
  | nil => simp
  | cons x xs ih => simp [ih]

theorem odd_zipWith {xs ys : List Bool} (hlen : xs.length = ys.length) :
    odd (List.zipWith (· ^^ ·) xs ys) = (odd xs ^^ odd ys) := by
  induction xs generalizing ys with
  | nil =>
    rw [List.length_nil, eq_comm, List.length_eq_zero_iff] at hlen
    subst hlen
    rfl
  | cons x xs ih =>
    cases ys with
    | nil => simp at hlen
    | cons y ys =>
      rw [List.zipWith_cons_cons, odd_cons, odd_cons, odd_cons, ih (by simpa using hlen), Bool.xor_assoc,
        Bool.xor_assoc, Bool.xor_left_comm y]

theorem bitsOf_xor (a b : BitVec w) : bitsOf (a ^^^ b) = List.zipWith (· ^^ ·) (bitsOf a) (bitsOf b) := by
  apply List.ext_getElem
  · simp
  · intro i hi hi'
    simp [bitsOf]

theorem odd_bitsOf_xor (a b : BitVec w) : odd (bitsOf (a ^^^ b)) = (odd (bitsOf a) ^^ odd (bitsOf b)) := by
  rw [bitsOf_xor, odd_zipWith (by simp)]

/-- The uppermost bit falls out. -/
theorem odd_bitsOf_shiftLeft (c : BitVec w) : odd (bitsOf (c <<< 1)) = (c.msb ^^ odd (bitsOf c)) := by
  cases w with
  | zero => simp [bitsOf, BitVec.msb]
  | succ n =>
    have hfirst : bitsOf c = c.msb :: (List.range n).map fun i => c.getMsbD (i + 1) := by
      rw [bitsOf, List.range_succ_eq_map, List.map_cons, List.map_map]
      rfl
    have hlast : bitsOf (c <<< 1) = ((List.range n).map fun i => c.getMsbD (i + 1)) ++ [false] := by
      have hend : c.getMsbD (n + 1) = false := BitVec.getMsbD_of_ge _ _ le_rfl
      rw [bitsOf, List.range_succ, List.map_append, List.map_singleton, BitVec.getMsbD_shiftLeft, hend]
      congr 1
      apply List.map_congr_left
      intro i _
      rw [BitVec.getMsbD_shiftLeft]
    rw [hfirst, hlast]
    simp

/-- A polynomial with an odd number of coefficients below the first keeps the parity. -/
theorem odd_bitsOf_shift (hpoly : odd (bitsOf poly) = true) (c : BitVec w) :
    odd (bitsOf (shift poly c)) = odd (bitsOf c) := by
  unfold shift
  split_ifs with hmsb
  · rw [odd_bitsOf_xor, odd_bitsOf_shiftLeft, hpoly, hmsb]
    simp
  · rw [odd_bitsOf_shiftLeft, Bool.eq_false_iff.mpr hmsb, Bool.false_xor]

theorem odd_replicate_false (n : ℕ) : odd (List.replicate n false) = false := by
  induction n with
  | zero => rfl
  | succ n ih => rw [List.replicate_succ, odd_cons, ih, Bool.false_xor]

/-- A bit at the upper end of a register that is not empty. -/
theorem odd_bitsOf_msbOf (n : ℕ) (b : Bool) : odd (bitsOf (msbOf (n + 1) b)) = b := by
  have hbits : bitsOf (msbOf (n + 1) b) = b :: List.replicate n false := by
    apply List.ext_getElem
    · simp
    · intro i hi hi'
      rw [length_bitsOf] at hi
      simp only [bitsOf, List.getElem_map, List.getElem_range, BitVec.getMsbD, hi, decide_true, Bool.true_and]
      rw [getLsbD_msbOf (by omega)]
      cases i with
      | zero => simp
      | succ i => simp [show n - (i + 1) ≠ n by omega]
  rw [hbits, odd_cons, odd_replicate_false, Bool.xor_false]

/-- **The parity of a check** is that of the message. -/
theorem odd_bitsOf_feed (hpoly : odd (bitsOf poly) = true) (c : BitVec w) (bits : List Bool) :
    odd (bitsOf (feed poly c bits)) = (odd (bitsOf c) ^^ odd bits) := by
  have hmsbOf : ∀ b, odd (bitsOf (msbOf w b)) = b := by
    intro b
    cases w with
    | zero => exact absurd hpoly (by simp [bitsOf])
    | succ n => exact odd_bitsOf_msbOf n b
  induction bits generalizing c with
  | nil => simp
  | cons b bits ih =>
    rw [feed_cons, ih, bit, odd_bitsOf_shift hpoly, odd_bitsOf_xor, hmsbOf, odd_cons, Bool.xor_assoc]

/-- **Odd changes are noticed.** Two messages that differ in an odd number of bits have different checks. -/
theorem feed_ne_of_odd (hpoly : odd (bitsOf poly) = true) (c : BitVec w) {xs ys : List Bool}
    (hlen : xs.length = ys.length) (h : odd (List.zipWith (· ^^ ·) xs ys) = true) :
    feed poly c xs ≠ feed poly c ys := by
  intro heq
  have hparity : odd (bitsOf (feed poly c xs)) = odd (bitsOf (feed poly c ys)) := by rw [heq]
  rw [odd_bitsOf_feed hpoly, odd_bitsOf_feed hpoly, Bool.xor_right_inj] at hparity
  rw [odd_zipWith hlen, hparity, Bool.xor_self] at h
  cases h

end Crc

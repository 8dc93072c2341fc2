import Mathlib

/-!
# Machine words

Conversions to the integer types of the target: `int`, `unsigned int` and `size_t` have 16 bits,
`long`, `off_t` and `uint32_t` have 32. A result of type `int` is an `Int16`.

## Main definitions

* `toUint`, `toUint32`, `toOff`: conversions of a number that is not negative
* `le16`, `le32`: numbers in a buffer, with the low byte first
-/

namespace I80k.Kernel

/-- Conversion to `uint` or `size_t`, of 16 bits. -/
def toUint (n : ℕ) : ℕ := n % 2 ^ 16

/-- Conversion to `uint32_t`. -/
def toUint32 (n : ℕ) : ℕ := n % 2 ^ 32

/-- Conversion to `off_t`, signed and of 32 bits. -/
def toOff (n : ℕ) : ℤ := (BitVec.ofNat 32 n).toInt

/-- The 16-bit number at index `i` of a buffer. -/
def le16 (buf : List UInt8) (i : ℕ) : ℕ := (buf.getD i 0).toNat + 2 ^ 8 * (buf.getD (i + 1) 0).toNat

/-- The 32-bit number at index `i` of a buffer. -/
def le32 (buf : List UInt8) (i : ℕ) : ℕ := le16 buf i + 2 ^ 16 * le16 buf (i + 2)

theorem toUint_of_lt {n : ℕ} (h : n < 2 ^ 16) : toUint n = n := Nat.mod_eq_of_lt h

theorem toUint32_of_lt {n : ℕ} (h : n < 2 ^ 32) : toUint32 n = n := Nat.mod_eq_of_lt h

theorem toOff_of_lt {n : ℕ} (h : n < 2 ^ 31) : toOff n = n := by
  have hnat : (BitVec.ofNat 32 n).toNat = n := by
    rw [BitVec.toNat_ofNat]
    omega
  rw [toOff, BitVec.toInt_eq_toNat_of_lt (by omega), hnat]

/-- From `2 ^ 31` on an `off_t` is negative. -/
theorem toOff_of_ge {n : ℕ} (h : 2 ^ 31 ≤ n) (hlt : n < 2 ^ 32) : toOff n = n - 2 ^ 32 := by
  have hnat : (BitVec.ofNat 32 n).toNat = n := by
    rw [BitVec.toNat_ofNat]
    omega
  rw [toOff, BitVec.toInt_eq_toNat_cond, hnat, if_neg (by omega)]
  simp

theorem int16_toInt_of_lt {n : ℕ} (h : n < 2 ^ 15) : (Int16.ofNat n).toInt = n := by
  rw [Int16.toInt_ofNat', show Int16.size = 2 ^ 16 from rfl, Int.bmod_eq_of_le (by omega) (by omega)]

theorem int16_not_neg_of_lt {n : ℕ} (h : n < 2 ^ 15) : ¬ Int16.ofNat n < 0 := by
  rw [Int16.lt_iff_toInt_lt, int16_toInt_of_lt h]
  simp

/-- An `int` keeps the low 16 bits. -/
theorem int16_toInt_ne {m n : ℕ} (hm : m < 2 ^ 15) (hn : n < 2 ^ 16) (hne : n ≠ m) :
    (Int16.ofNat n).toInt ≠ m := by
  rw [Int16.toInt_ofNat', show Int16.size = 2 ^ 16 from rfl, Int.bmod_def]
  split_ifs <;> omega

theorem int16_toInt_neg {x : Int16} (h : x < 0) : x.toInt < 0 := by
  simpa using Int16.lt_iff_toInt_lt.mp h

end I80k.Kernel

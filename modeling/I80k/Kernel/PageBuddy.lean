import I80k.Kernel.Page

/-!
# The buddy of an area

An area of `2 ^ order` pages begins at a multiple of its size in its segment. Its buddy has the bit of this size
flipped, and is in the same segment, as long as the size is a positive `int`: the area of 32 pages has the size
`1 << 15`, which is negative, and is converted to a number of 32 bits with all bits from 15 on set.

## Main definitions

* `farPtr`: a far pointer
* `BuddyInSegment`: the buddy of an area is in its segment, and the area is the buddy of its buddy

## Main results

* `pageBuddy_of_lt`, `pageBuddy_order_five`: the buddy of an area
* `page_buddy_in_segment_iff`: the orders for which it is in the segment
-/

namespace I80k.Kernel

/-- A far pointer: the segment in the high word, and the offset in the low one. -/
def farPtr (segment offset : BitVec 16) : ℕ := segment.toNat * 2 ^ 16 + offset.toNat

/-- The buddy of an area has the same segment and another multiple of the size of the area as its offset, with one
bit that differs; and the area is the buddy of its buddy. -/
def BuddyInSegment (segment offset : BitVec 16) (order : ℕ) : Prop :=
  ∃ offset' : BitVec 16, pageBuddy (farPtr segment offset) order = farPtr segment offset' ∧
    2 ^ (order + pageShift) ∣ offset'.toNat ∧
    (∀ i, offset'.getLsbD i ≠ offset.getLsbD i ↔ i = order + pageShift) ∧
    pageBuddy (farPtr segment offset') order = farPtr segment offset

variable {segment offset : BitVec 16} {order : ℕ}

/-- The arithmetic on the offset alone. -/
theorem pageBuddy_farPtr (segment offset : BitVec 16) (order : ℕ) : pageBuddy (farPtr segment offset) order =
    toUint32 (segment.toNat * 2 ^ 16 + (oneShl (toUint (order + pageShift)) ^^^ offset.toNat)) := by
  have hlt := offset.isLt
  have hbase : farPtr segment offset / 2 ^ 16 * 2 ^ 16 = segment.toNat * 2 ^ 16 := by
    rw [farPtr]
    omega
  have hoff : farPtr segment offset - segment.toNat * 2 ^ 16 = offset.toNat := by
    rw [farPtr]
    omega
  simp only [pageBuddy, hbase, hoff]

/-- Below the order 5, the bit of the size is flipped in the offset. -/
theorem pageBuddy_of_lt (segment offset : BitVec 16) (horder : order < 5) : pageBuddy (farPtr segment offset) order =
    farPtr segment (BitVec.twoPow 16 (order + pageShift) ^^^ offset) := by
  have hshift : order + pageShift < 15 := by
    rw [pageShift]
    omega
  have hone : oneShl (toUint (order + pageShift)) = (BitVec.twoPow 16 (order + pageShift)).toNat := by
    rw [toUint_of_lt (by omega), oneShl, if_pos hshift, BitVec.toNat_twoPow_of_lt (by omega)]
  have hlt := (BitVec.twoPow 16 (order + pageShift) ^^^ offset).isLt
  have hseg := segment.isLt
  rw [pageBuddy_farPtr, hone, ← BitVec.toNat_xor, toUint32_of_lt (by omega), farPtr]

/-- At the order 5 the sign of the `int` gets into the segment. -/
theorem pageBuddy_order_five (hdvd : 2 ^ 15 ∣ offset.toNat) (offset' : BitVec 16) :
    pageBuddy (farPtr segment offset) 5 ≠ farPtr segment offset' := by
  have hseg := segment.isLt
  have hlt := offset.isLt
  have hlt' := offset'.isLt
  have hone : oneShl (toUint (5 + pageShift)) = 2 ^ 32 - 2 ^ 15 := rfl
  rw [pageBuddy_farPtr, hone, farPtr, toUint32]
  obtain ⟨k, hk⟩ := hdvd
  -- the offset is 0 or the size itself
  obtain rfl | rfl : k = 0 ∨ k = 1 := by omega
  · have hxor : (2 ^ 32 - 2 ^ 15) ^^^ offset.toNat = 2 ^ 32 - 2 ^ 15 := by rw [hk]; rfl
    rw [hxor]
    omega
  · have hxor : (2 ^ 32 - 2 ^ 15) ^^^ offset.toNat = 2 ^ 32 - 2 ^ 16 := by rw [hk]; rfl
    rw [hxor]
    omega

/-- A flipped bit. -/
theorem getLsbD_flip {k : ℕ} (hk : k < 16) (i : ℕ) :
    (BitVec.twoPow 16 k ^^^ offset).getLsbD i ≠ offset.getLsbD i ↔ i = k := by
  rw [BitVec.getLsbD_xor, BitVec.getLsbD_twoPow]
  by_cases h : i = k
  · subst h
    simp [hk]
  · have hne : ¬ k = i := fun he => h he.symm
    simp [h, hne]

theorem dvd_flip {k : ℕ} (hk : k < 16) (hdvd : 2 ^ k ∣ offset.toNat) :
    2 ^ k ∣ (BitVec.twoPow 16 k ^^^ offset).toNat := by
  apply Nat.dvd_of_mod_eq_zero
  rw [BitVec.toNat_xor, Nat.xor_mod_two_pow, BitVec.toNat_twoPow_of_lt hk, Nat.mod_self,
    Nat.mod_eq_zero_of_dvd hdvd]
  rfl

/-- **The buddy of an area is in its segment**, and is an involution, for all orders but 5. -/
theorem page_buddy_in_segment_iff (segment offset : BitVec 16) (order : ℕ) (horder : order < maxOrder - 1)
    (hdvd : 2 ^ (order + pageShift) ∣ offset.toNat) : BuddyInSegment segment offset order ↔ order ≠ 5 := by
  constructor
  · rintro ⟨offset', hbuddy, -⟩ rfl
    exact pageBuddy_order_five hdvd offset' hbuddy
  · intro hne
    have hlt : order < 5 := by
      rw [maxOrder] at horder
      omega
    have hshift : order + pageShift < 16 := by
      rw [pageShift]
      omega
    refine ⟨BitVec.twoPow 16 (order + pageShift) ^^^ offset, pageBuddy_of_lt segment offset hlt,
      dvd_flip hshift hdvd, getLsbD_flip hshift, ?_⟩
    rw [pageBuddy_of_lt segment _ hlt, ← BitVec.xor_assoc, BitVec.xor_self, BitVec.zero_xor]

/-- The second page of a segment. -/
theorem page_buddy_in_segment_second : BuddyInSegment 0x2000 0x0400 0 :=
  (page_buddy_in_segment_iff 0x2000 0x0400 0 (by decide) (by decide)).mpr (by decide)

/-- The buddy of an area of 32 pages at the start of a segment is in the segment before. -/
theorem not_buddy_in_segment_five :
    ¬ ∀ (segment offset : BitVec 16) (order : ℕ), order < maxOrder - 1 → 2 ^ (order + pageShift) ∣ offset.toNat →
      BuddyInSegment segment offset order := by
  intro h
  obtain ⟨offset', hbuddy, -⟩ := h 0x2000 0 5 (by decide) (by decide)
  exact pageBuddy_order_five (by decide) offset' hbuddy

end I80k.Kernel

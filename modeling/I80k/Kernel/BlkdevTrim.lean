import I80k.Kernel.Blkdev

/-!
# Trimming ranges to the size of a device

`blk_trim_range` and `blk_block_trim_range` cut a range off at the end of the device. Both compute the end of
the range in the width of its start, and the size of a device in bytes is the low half of a product that has
up to 48 bits, taken as a signed number. For both functions this module says exactly which ranges of which
devices are cut off where the device ends.

## Main definitions

* `Blkdev.TrimsExactly`, `Blkdev.BlockTrimsExactly`: the range is cut off at the end of the device
* `Blkdev.TrimFits`: nothing that matters is lost in the arithmetic of `blk_trim_range`

## Main results

* `Blkdev.blkTrimRange_eq`: `blk_trim_range` in terms of the size of the device as a number of 32 bits
* `blk_trim_range_exact_iff`: when ranges are cut off exactly
-/

namespace I80k.Kernel

namespace Blkdev

variable {σ : Type} (dev : Blkdev σ)

/-- The bytes of the range that are on the device, as exact integers. -/
def TrimsExactly (offset len : ℕ) : Prop :=
  (dev.blkTrimRange offset len : ℤ) = min (len : ℤ) (max 0 (dev.blockSize * dev.blockCount - offset))

/-- The blocks of the range that are on the device, as exact integers. -/
def BlockTrimsExactly (block count : ℕ) : Prop :=
  (dev.blkBlockTrimRange block count : ℤ) = min (count : ℤ) (max 0 (dev.blockCount - block))

/-- The range is empty or behind the device; or the low 32 bits of the size of the device are a positive
`off_t` behind the start of the range, and the range ends within them, or the size has no other bits, or
the end of the range wraps around and is on the device. -/
def TrimFits (offset len : ℕ) : Prop :=
  let size := dev.blockSize * dev.blockCount
  len = 0 ∨ size ≤ offset ∨
    offset < size % 2 ^ 32 ∧ size % 2 ^ 32 < 2 ^ 31 ∧
      if offset + len < 2 ^ 31 then size < 2 ^ 32 ∨ offset + len ≤ size % 2 ^ 32 else offset + len ≤ size

instance (offset len : ℕ) : Decidable (dev.TrimsExactly offset len) := inferInstanceAs (Decidable (_ = _))
instance (block count : ℕ) : Decidable (dev.BlockTrimsExactly block count) :=
  inferInstanceAs (Decidable (_ = _))

variable {dev}

/-- The size as an `off_t` is negative, or it is a number of 31 bits. -/
theorem blkTrimRange_eq {offset len : ℕ} (hoffset : offset < 2 ^ 31) (hlen : len < 2 ^ 16) :
    dev.blkTrimRange offset len =
      let total := dev.blockSize * dev.blockCount % 2 ^ 32
      if total ≤ offset ∨ 2 ^ 31 ≤ total then 0
      else if total < offset + len ∧ offset + len < 2 ^ 31 then total - offset
      else len := by
  have hoff : ∀ n < 2 ^ 32, toOff n = if n < 2 ^ 31 then (n : ℤ) else n - 2 ^ 32 := by
    intro n hlt
    split_ifs with h
    · exact toOff_of_lt h
    · exact toOff_of_ge (not_lt.mp h) hlt
  have htotal := hoff (toUint32 (dev.blockSize * dev.blockCount)) (Nat.mod_lt _ (by norm_num))
  have hend := hoff (offset + len) (by omega)
  rw [blkTrimRange]
  dsimp only
  rw [htotal, hend, toUint, toUint32]
  split_ifs <;> omega

/-- **Bytes.** -/
theorem trimsExactly_iff {offset len : ℕ} (hoffset : offset < 2 ^ 31) (hlen : len < 2 ^ 16) :
    dev.TrimsExactly offset len ↔ dev.TrimFits offset len := by
  rw [TrimsExactly, blkTrimRange_eq hoffset hlen, TrimFits]
  have hcast : ((dev.blockSize : ℤ) * dev.blockCount) = ((dev.blockSize * dev.blockCount : ℕ) : ℤ) := by
    push_cast
    rfl
  rw [hcast]
  generalize dev.blockSize * dev.blockCount = size
  have hmod := Nat.mod_le size (2 ^ 32)
  dsimp only
  split_ifs <;> omega

/-- **Blocks.** -/
theorem blockTrimsExactly_iff {block count : ℕ} (hcount : dev.blockCount < 2 ^ 32) (hblock : block < 2 ^ 32)
    (hlen : count < 2 ^ 16) :
    dev.BlockTrimsExactly block count ↔ dev.blockCount ≤ block ∨ block + count < 2 ^ 32 := by
  rw [BlockTrimsExactly, blkBlockTrimRange, toUint32, toUint]
  split_ifs <;> omega

end Blkdev

/-- **Ranges are cut off exactly**, in bytes if and only if the arithmetic fits, and in blocks if and only if
the range is behind the device or its end has 32 bits. -/
theorem blk_trim_range_exact_iff {σ : Type} (dev : Blkdev σ) (offset len block count : ℕ)
    (hcount : dev.blockCount < 2 ^ 32) (hoffset : offset < 2 ^ 31) (hlen : len < 2 ^ 16)
    (hblock : block < 2 ^ 32) (hblocks : count < 2 ^ 16) :
    (dev.TrimsExactly offset len ↔ dev.TrimFits offset len) ∧
      (dev.BlockTrimsExactly block count ↔ dev.blockCount ≤ block ∨ block + count < 2 ^ 32) :=
  ⟨Blkdev.trimsExactly_iff hoffset hlen, Blkdev.blockTrimsExactly_iff hcount hblock hblocks⟩

/-- A device of blocks of 512 bytes, without functions. -/
def sized (blockCount : ℕ) : Blkdev Unit := ⟨512, 9, blockCount, none, none, none, none⟩

/-- A device of four blocks. -/
theorem blk_trim_range_exact_four :
    (sized 4).blockCount < 2 ^ 32 ∧ (sized 4).TrimsExactly 2000 100 ∧ (sized 4).BlockTrimsExactly 3 2 := by
  have h := blk_trim_range_exact_iff (sized 4) 2000 100 3 2 (by decide) (by norm_num) (by norm_num)
    (by norm_num) (by norm_num)
  exact ⟨by decide, h.1.mpr (Or.inr (Or.inr (by decide))), h.2.mpr (Or.inr (by norm_num))⟩

/-- A device of 4 GiB has no bytes, and the last two blocks of one with `2 ^ 32 - 1` blocks are three. -/
theorem not_trimsExactly_large :
    ¬ (sized 8388608).TrimsExactly 0 512 ∧ ¬ (sized 4294967295).BlockTrimsExactly 4294967293 3 := by
  constructor
  · decide
  · decide

end I80k.Kernel

import I80k.Kernel.Ext2.BlockMap
import I80k.Kernel.Ext2.Dir

/-!
# The place of an inode

The inodes of a group lie one after the other in the inode table of the group. `get_inode_addr` computes
the offset of an inode in its table in a `size_t` of 16 bits, so from the first inode on whose offset does
not fit, the driver reads at a lower address of the same table, where another inode is.

## Main definitions

* `Ext2.inodeAddr`: the address of an inode on the disk
* `Ext2.loadAddr`: the address that `ext2_load_inode` reads from
* `InodeTables`: the tables of a consistent file system

## Main results

* `Ext2.loadAddr_eq`: the address read, with the offset cut to 16 bits
* `InodeTables.inodeAddr_disjoint`: on the disk the inodes are in disjoint places
* `ext2_inode_location_iff`: the inodes that the driver finds
-/

namespace I80k.Kernel

namespace Ext2

variable (fs : Ext2)

/-- The offset of an inode in the table of its group. -/
def inodeOffset (num : ℕ) : ℕ := (num - 1) % fs.inodesPerGroup * fs.inodeSize

/-- The address of an inode. -/
def inodeAddr (num : ℕ) : ℕ :=
  fs.inodeTable ((num - 1) / fs.inodesPerGroup) * fs.blockSize +
    (num - 1) % fs.inodesPerGroup * fs.inodeSize

/-- The address that `ext2_load_inode` reads from. -/
def loadAddr (num : ℕ) : ℕ :=
  toUint32 ((fs.getInodeAddr num).1 * fs.blockSize + (fs.getInodeAddr num).2)

theorem ext2LoadInode_eq (num : ℕ) :
    fs.ext2LoadInode num =
      if (fs.blkRead (fs.loadAddr num) 128).1 < 0 then .error (fs.blkRead (fs.loadAddr num) 128).1
      else .ok (parseInode (fs.blkRead (fs.loadAddr num) 128).2) := rfl

variable {fs}

theorem inodeAddr_eq (num : ℕ) : fs.inodeAddr num =
    fs.inodeTable ((num - 1) / fs.inodesPerGroup) * fs.blockSize + fs.inodeOffset num := rfl

/-- **The address read**: that of the table, and an offset of 16 bits. -/
theorem loadAddr_eq (hpos : 0 < fs.blockSize) {num : ℕ} (h₁ : 1 ≤ num) (hlt : num ≤ 2 ^ 32)
    (hfits : fs.inodeTable ((num - 1) / fs.inodesPerGroup) * fs.blockSize + toUint (fs.inodeOffset num) <
      2 ^ 32) :
    fs.loadAddr num =
      fs.inodeTable ((num - 1) / fs.inodesPerGroup) * fs.blockSize + toUint (fs.inodeOffset num) := by
  have hnum : toUint32 (num + (2 ^ 32 - 1)) = num - 1 := by
    rw [toUint32]
    omega
  set table := fs.inodeTable ((num - 1) / fs.inodesPerGroup) with htable
  set offset := toUint (fs.inodeOffset num) with hoffset
  have hdiv := Nat.div_add_mod offset fs.blockSize
  -- neither the block number nor the address overflows
  have hblock : toUint32 (table + offset / fs.blockSize) = table + offset / fs.blockSize := by
    have hle := Nat.le_mul_of_pos_right table hpos
    have hle' := Nat.div_le_self offset fs.blockSize
    exact toUint32_of_lt (by omega)
  have hget : fs.getInodeAddr num = (table + offset / fs.blockSize, offset % fs.blockSize) := by
    simp only [getInodeAddr, hnum]
    rw [← htable, ← inodeOffset, ← hoffset, hblock]
  have haddr : (table + offset / fs.blockSize) * fs.blockSize + offset % fs.blockSize =
      table * fs.blockSize + offset := by
    rw [Nat.add_mul, Nat.mul_comm (offset / fs.blockSize)]
    omega
  rw [loadAddr, hget, haddr]
  exact toUint32_of_lt hfits

end Ext2

/-! ## Consistent tables -/

/-- The inode tables of a consistent file system of less than 2 GiB: every inode is in one of the groups,
and the tables of the groups do not overlap. -/
structure InodeTables (fs : Ext2) (groups inodesCount : ℕ) : Prop where
  logBlockSize : fs.logBlockSize ≤ 2
  inodesPerGroup : 0 < fs.inodesPerGroup
  count : inodesCount ≤ groups * fs.inodesPerGroup
  count_lt : inodesCount < 2 ^ 32
  fits : ∀ g < groups, fs.inodeTable g * fs.blockSize + fs.inodesPerGroup * fs.inodeSize < 2 ^ 31
  disjoint : ∀ g < groups, ∀ g' < groups, g ≠ g' →
    fs.inodeTable g * fs.blockSize + fs.inodesPerGroup * fs.inodeSize ≤ fs.inodeTable g' * fs.blockSize ∨
      fs.inodeTable g' * fs.blockSize + fs.inodesPerGroup * fs.inodeSize ≤ fs.inodeTable g * fs.blockSize

namespace InodeTables

variable {fs : Ext2} {groups inodesCount : ℕ}

theorem group_lt (h : InodeTables fs groups inodesCount) {n : ℕ} (h₁ : 1 ≤ n) (hn : n ≤ inodesCount) :
    (n - 1) / fs.inodesPerGroup < groups := by
  rw [Nat.div_lt_iff_lt_mul h.inodesPerGroup]
  have := h.count
  omega

/-- An inode lies inside of the table of its group. -/
theorem offset_le (h : InodeTables fs groups inodesCount) (n : ℕ) :
    fs.inodeOffset n + fs.inodeSize ≤ fs.inodesPerGroup * fs.inodeSize := by
  have hlt := Nat.mod_lt (n - 1) h.inodesPerGroup
  calc fs.inodeOffset n + fs.inodeSize
      = ((n - 1) % fs.inodesPerGroup + 1) * fs.inodeSize := by rw [Ext2.inodeOffset, Nat.succ_mul]
    _ ≤ fs.inodesPerGroup * fs.inodeSize := Nat.mul_le_mul_right _ hlt

theorem loadAddr_eq (h : InodeTables fs groups inodesCount) {n : ℕ} (h₁ : 1 ≤ n) (hn : n ≤ inodesCount) :
    fs.loadAddr n =
      fs.inodeTable ((n - 1) / fs.inodesPerGroup) * fs.blockSize + toUint (fs.inodeOffset n) := by
  obtain ⟨-, hlo, -, -⟩ := Ext2.blockSize_of_le h.logBlockSize
  have hfits := h.fits _ (h.group_lt h₁ hn)
  have hle := h.offset_le n
  have hcount := h.count_lt
  have hcut : toUint (fs.inodeOffset n) ≤ fs.inodeOffset n := Nat.mod_le _ _
  exact Ext2.loadAddr_eq (by omega) h₁ (by omega) (by omega)

/-- The address is right exactly if the offset has 16 bits. -/
theorem loadAddr_eq_iff (h : InodeTables fs groups inodesCount) {n : ℕ} (h₁ : 1 ≤ n)
    (hn : n ≤ inodesCount) : fs.loadAddr n = fs.inodeAddr n ↔ fs.inodeOffset n < 2 ^ 16 := by
  rw [h.loadAddr_eq h₁ hn, Ext2.inodeAddr_eq, Nat.add_left_cancel_iff]
  exact ⟨fun he => he ▸ Nat.mod_lt _ (by norm_num), toUint_of_lt⟩

/-- On the disk the inodes are in disjoint places. -/
theorem inodeAddr_disjoint (h : InodeTables fs groups inodesCount) {m n : ℕ} (hm₁ : 1 ≤ m)
    (hm : m ≤ inodesCount) (hn₁ : 1 ≤ n) (hn : n ≤ inodesCount) (hne : m ≠ n) :
    fs.inodeAddr m + fs.inodeSize ≤ fs.inodeAddr n ∨ fs.inodeAddr n + fs.inodeSize ≤ fs.inodeAddr m := by
  rw [Ext2.inodeAddr_eq, Ext2.inodeAddr_eq]
  by_cases hgroup : (m - 1) / fs.inodesPerGroup = (n - 1) / fs.inodesPerGroup
  · -- in one table the inodes have different indices
    rw [hgroup]
    have hm' := Nat.div_add_mod (m - 1) fs.inodesPerGroup
    have hn' := Nat.div_add_mod (n - 1) fs.inodesPerGroup
    rw [hgroup] at hm'
    have hindex : (m - 1) % fs.inodesPerGroup ≠ (n - 1) % fs.inodesPerGroup := by omega
    simp only [Ext2.inodeOffset]
    rcases Nat.lt_or_gt_of_ne hindex with hlt | hlt
    · have hle := Nat.mul_le_mul_right fs.inodeSize hlt
      rw [Nat.succ_mul] at hle
      omega
    · have hle := Nat.mul_le_mul_right fs.inodeSize hlt
      rw [Nat.succ_mul] at hle
      omega
  · have hm' := h.offset_le m
    have hn' := h.offset_le n
    rcases h.disjoint _ (h.group_lt hm₁ hm) _ (h.group_lt hn₁ hn) hgroup with hd | hd
    · omega
    · omega

end InodeTables

/-- **The inodes that the driver finds.** On every consistent file system, `ext2_load_inode` reads inode `n`
at its address in the table of its group if and only if the offset in the table is below `2 ^ 16`; and
inodes that are found are read from disjoint places. -/
theorem ext2_inode_location_iff (fs : Ext2) (groups inodesCount : ℕ)
    (h : InodeTables fs groups inodesCount) :
    (∀ n, 1 ≤ n → n ≤ inodesCount →
      (fs.loadAddr n =
          fs.inodeTable ((n - 1) / fs.inodesPerGroup) * fs.blockSize +
            (n - 1) % fs.inodesPerGroup * fs.inodeSize ↔
        (n - 1) % fs.inodesPerGroup * fs.inodeSize < 2 ^ 16)) ∧
    (128 ≤ fs.inodeSize → ∀ m n, 1 ≤ m → m ≤ inodesCount → 1 ≤ n → n ≤ inodesCount → m ≠ n →
      (m - 1) % fs.inodesPerGroup * fs.inodeSize < 2 ^ 16 →
      (n - 1) % fs.inodesPerGroup * fs.inodeSize < 2 ^ 16 →
      fs.loadAddr m + 128 ≤ fs.loadAddr n ∨ fs.loadAddr n + 128 ≤ fs.loadAddr m) := by
  refine ⟨fun n h₁ hn => h.loadAddr_eq_iff h₁ hn, ?_⟩
  intro hsize m n hm₁ hm hn₁ hn hne hmfit hnfit
  rw [(h.loadAddr_eq_iff hm₁ hm).mpr hmfit, (h.loadAddr_eq_iff hn₁ hn).mpr hnfit]
  rcases h.inodeAddr_disjoint hm₁ hm hn₁ hn hne with hd | hd
  · exact Or.inl (by omega)
  · exact Or.inr (by omega)

/-- A file system of two groups of 1024 inodes. -/
def twoGroups : Ext2 where
  logBlockSize := 0
  inodesPerGroup := 1024
  inodeSize := 128
  featureRoCompat := 0
  inodeTable := fun g => 5 + 8192 * g
  rootInode := ⟨0x41ED, 0, []⟩
  blkRead := fun _ len => (Int16.ofNat len, List.replicate len 0)
  alloc := fun _ => true
  fresh := []

theorem inodeTables_twoGroups : InodeTables twoGroups 2 2048 where
  logBlockSize := by decide
  inodesPerGroup := by decide
  count := by decide
  count_lt := by decide
  fits := by decide
  disjoint := by decide

/-- The first and the last inode of its second group whose offsets have 16 bits. -/
theorem ext2_inode_location_iff_twoGroups :
    twoGroups.loadAddr 1025 = 8197 * 1024 ∧
      (twoGroups.loadAddr 1025 + 128 ≤ twoGroups.loadAddr 1536 ∨
        twoGroups.loadAddr 1536 + 128 ≤ twoGroups.loadAddr 1025) := by
  obtain ⟨hexact, hdisjoint⟩ := ext2_inode_location_iff twoGroups 2 2048 inodeTables_twoGroups
  exact ⟨(hexact 1025 (by decide) (by decide)).mpr (by decide),
    hdisjoint (by decide) 1025 1536 (by decide) (by decide) (by decide) (by decide) (by decide) (by decide)
      (by decide)⟩

/-- Inode 513 is read where inode 1 is. -/
theorem not_location_twoGroups :
    InodeTables twoGroups 2 2048 ∧
      twoGroups.loadAddr 513 ≠
        twoGroups.inodeTable ((513 - 1) / twoGroups.inodesPerGroup) * twoGroups.blockSize +
          (513 - 1) % twoGroups.inodesPerGroup * twoGroups.inodeSize ∧
      twoGroups.loadAddr 513 = twoGroups.loadAddr 1 :=
  ⟨inodeTables_twoGroups, by decide, by decide⟩

end I80k.Kernel

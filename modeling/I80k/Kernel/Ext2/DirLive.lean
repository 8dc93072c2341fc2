import I80k.Kernel.Ext2.DirBuffer
import I80k.Kernel.Ext2.ReadInode

/-!
# The unused records of a directory

An unused record has the inode number 0, and keeps the name it had: this is what the first record of a
block becomes when its file is removed. `ext2_dir_lookup` compares names only, so it finds the first record
with a name in the first 1025 blocks, whether it is in use or not, if there is memory for its buffer. The records are
taken as the driver reads them, block by block through its own translation of the block numbers.

## Main definitions

* `Ext2.scannedEntries`: the records of the blocks that a lookup goes through
* `Ext2.FormedDir`: a well-formed directory, on a device that is read without errors
* `Ext2.FindsLive`: a lookup finds records in use, and finds them whenever they are there

## Main results

* `Ext2.FormedDir.lookup`: the first record with the name is found
* `ext2_dir_lookup_live_iff`: a lookup finds what is in use if and only if the first record with the name is, and
  there is memory
-/

namespace I80k.Kernel

namespace Ext2

section Definitions

variable (fs : Ext2) (disk : ℕ → UInt8) (dir : Inode)

/-- Block `k` of a directory. -/
def blockBytes (k : ℕ) : List UInt8 := fs.fileBytes dir disk (k * fs.blockSize) fs.blockSize

/-- The records of these blocks. -/
def scannedEntries : List Entry := records fs.blockSize (fs.blockBytes disk dir) 0 (fs.scannedBlocks dir)

/-- A well-formed directory, on a device that is read without errors. -/
structure FormedDir : Prop where
  isDir : dir.IsDir
  size_lt : dir.size < 2 ^ 32
  whole : dir.size % fs.blockSize = 0
  reads : ∀ k < fs.scannedBlocks dir, fs.ReadsBlock dir disk k
  formed : ∀ k < fs.scannedBlocks dir, WellFormed fs.blockSize (fs.blockBytes disk dir k) fs.blockSize 0

/-- A lookup on a heap returns; an inode that it finds is not null, and is that of a record with the name; and the
record in use with the name is found, if there is one. -/
def FindsLive {β : Type} (sbrk : Libc.Sbrk β) (heap : Libc.Data β) (name : List Char8) : Prop :=
  ∃ r, fs.ext2DirLookupOn sbrk heap dir name = some r ∧
    (r.1 = 1 → ∃ e ∈ fs.scannedEntries disk dir, e.name = name ∧ e.inode ≠ 0 ∧ r.2 = some e.inode) ∧
    ∀ e, ((fs.scannedEntries disk dir).find? fun e => e.name = name ∧ e.inode ≠ 0) = some e →
      r = (1, some e.inode)

end Definitions

variable {fs : Ext2} {disk : ℕ → UInt8} {dir : Inode}

theorem FormedDir.readsBlocks (h : fs.FormedDir disk dir) (hlog : fs.logBlockSize ≤ 2)
    (hsize : dir.size < 2 ^ 31) :
    fs.ReadsBlocks dir (fs.blockBytes disk dir) (fs.scannedBlocks dir) := by
  refine ⟨fun k hk => ?_, fun k _ => length_fileBytes _ _, h.formed⟩
  have hmin : k < dir.size / fs.blockSize ∧ k < 1025 := lt_min_iff.mp hk
  have hle : k * fs.blockSize + fs.blockSize ≤ dir.size := by
    have := Nat.mul_le_of_le_div _ _ _ (Nat.succ_le_of_lt hmin.1)
    rwa [Nat.succ_mul] at this
  obtain ⟨hres, hbytes⟩ := readInode_block h.isDir hlog hsize (show k < 2 ^ 16 by omega) hle
  refine ⟨hres, hbytes.trans ?_⟩
  rw [readFileBlock_eq (h.reads k hk), blockBytes]
  exact List.take_of_length_le (by rw [length_fileBytes])

/-- **What a lookup finds**: the first record with the name, in use or not. -/
theorem FormedDir.lookup (h : fs.FormedDir disk dir) (hlog : fs.logBlockSize ≤ 2)
    (hsize : dir.size < 2 ^ 31) (name : List Char8) :
    ∃ r, fs.ext2DirLookup dir name = some r ∧
      match (fs.scannedEntries disk dir).find? fun e => e.name = name with
      | some e => r = (1, some e.inode)
      | none => r.1 ≠ 1 := by
  obtain ⟨-, hlo, hhi, -⟩ := blockSize_of_le hlog
  obtain ⟨buf', hlookup⟩ := (h.readsBlocks hlog hsize).dirBlocks hlog name (fs.scannedBlocks dir) 0 1025
    fs.fresh (by omega) (min_le_right _ _)
  rw [ext2DirLookup, if_neg (not_not.mpr h.isDir), hlookup, scannedEntries]
  cases (records fs.blockSize (fs.blockBytes disk dir) 0 (fs.scannedBlocks dir)).find?
      fun e => e.name = name with
  | some e => exact ⟨_, rfl, rfl⟩
  | none =>
    -- either the directory ends, or the lookup gives up after 1025 blocks
    simp only
    rcases Nat.lt_or_ge (dir.size / fs.blockSize) 1025 with hend | hmany
    · have hblocks : fs.scannedBlocks dir = dir.size / fs.blockSize := min_eq_left hend.le
      have hsmall : dir.size < 1025 * fs.blockSize := by
        rw [Nat.div_lt_iff_lt_mul (by omega)] at hend
        exact hend
      obtain ⟨fuel, hfuel⟩ : ∃ f, 1025 - dir.size / fs.blockSize = f + 1 :=
        ⟨1024 - dir.size / fs.blockSize, by omega⟩
      rw [hblocks, hfuel, Nat.zero_add, Ext2.dirBlocks]
      dsimp only
      rw [readInode_end h.isDir hlog h.whole (by omega), if_pos (show (0 : Int16) ≤ 0 by decide)]
      exact ⟨_, rfl, by decide⟩
    · rw [scannedBlocks, min_eq_right hmany, Nat.sub_self, Ext2.dirBlocks]
      exact ⟨_, rfl, by decide⟩

/-- The size of a directory is negative as an `off_t` from 2 GiB on, and nothing is read. -/
theorem FormedDir.read_large (h : fs.FormedDir disk dir) (hsize : 2 ^ 31 ≤ dir.size) :
    (fs.ext2ReadInode dir 0 (toUint fs.blockSize)).1 = 0 := by
  have hlt := h.size_lt
  have hfirst : fs.trimLen dir 0 (toUint fs.blockSize) = 0 := by
    rw [trimLen, fileLen_of_isDir h.isDir, toOff_of_ge hsize hlt, toOff_of_lt (by norm_num), if_pos (by omega)]
  rw [ext2ReadInode, hfirst]
  rfl

/-- Then nothing is found, with a buffer or without. -/
theorem FormedDir.lookup_large (h : fs.FormedDir disk dir) (hlog : fs.logBlockSize ≤ 2) (hsize : 2 ^ 31 ≤ dir.size)
    {β : Type} (sbrk : Libc.Sbrk β) (heap : Libc.Data β) (name : List Char8) :
    fs.ext2DirLookupOn sbrk heap dir name = some (0, none) := by
  have hread := h.read_large hsize
  by_cases hbuf : Libc.Obtains sbrk heap fs.bufferSize
  · rw [ext2DirLookupOn_of_obtains hbuf, ext2DirLookup, if_neg (not_not.mpr h.isDir), Ext2.dirBlocks, Nat.zero_mul,
      show toUint32 0 = 0 from rfl]
    dsimp only
    rw [hread, if_pos (show (0 : Int16) ≤ 0 by decide)]
  · rw [ext2DirLookupOn_of_not hlog hbuf h.isDir, hread, if_pos (show (0 : Int16) ≤ 0 by decide)]

/-- Without a buffer a lookup has a result only if the directory is empty. -/
theorem FormedDir.lookup_null (h : fs.FormedDir disk dir) (hlog : fs.logBlockSize ≤ 2) (hsize : dir.size < 2 ^ 31)
    {β : Type} {sbrk : Libc.Sbrk β} {heap : Libc.Data β} (hbuf : ¬ Libc.Obtains sbrk heap fs.bufferSize)
    (name : List Char8) :
    fs.ext2DirLookupOn sbrk heap dir name = if dir.size = 0 then some (0, none) else none := by
  have hwhole := h.whole
  by_cases hempty : dir.size = 0
  · rw [ext2DirLookupOn_of_not hlog hbuf h.isDir]
    have hend := readInode_end h.isDir hlog hwhole (by omega)
    rw [hempty, Nat.zero_div, Nat.zero_mul, show toUint32 0 = 0 from rfl] at hend
    rw [hend, if_pos (show (0 : Int16) ≤ 0 by decide), if_pos hempty]
  · have hblock : fs.blockSize ≤ dir.size :=
      Nat.le_of_dvd (Nat.pos_of_ne_zero hempty) (Nat.dvd_of_mod_eq_zero hwhole)
    rw [if_neg hempty]
    exact ext2DirLookupOn_null hlog hbuf h.isDir hblock hsize name

/-- With a buffer, a lookup finds what is in use if and only if the first record with the name is. -/
theorem FormedDir.findsLive_iff (h : fs.FormedDir disk dir) (hlog : fs.logBlockSize ≤ 2) (hsize : dir.size < 2 ^ 31)
    {β : Type} {sbrk : Libc.Sbrk β} {heap : Libc.Data β} (hbuf : Libc.Obtains sbrk heap fs.bufferSize)
    (name : List Char8) :
    fs.FindsLive disk dir sbrk heap name ↔
      ∀ e, ((fs.scannedEntries disk dir).find? fun e => e.name = name) = some e → e.inode ≠ 0 := by
  obtain ⟨r, hr, hfirst⟩ := h.lookup hlog hsize name
  rw [FindsLive, ext2DirLookupOn_of_obtains hbuf]
  cases hfind : (fs.scannedEntries disk dir).find? fun e => e.name = name with
  | none =>
    rw [hfind] at hfirst
    refine iff_of_true ⟨r, hr, fun hone => absurd hone hfirst, fun e he => ?_⟩ (by simp)
    have hname := List.find?_some he
    simp only [decide_eq_true_eq] at hname
    exact absurd (List.find?_eq_none.mp hfind e (List.mem_of_find?_eq_some he)) (by simp [hname.1])
  | some e =>
    rw [hfind] at hfirst
    obtain rfl : r = (1, some e.inode) := hfirst
    constructor
    · -- What was returned for it is a record in use, with the same inode.
      rintro ⟨r', hr', hone, -⟩ e' he'
      obtain rfl : e = e' := Option.some.inj he'
      obtain rfl := Option.some.inj (hr.symm.trans hr')
      obtain ⟨e', -, -, hlive, hinum⟩ := hone rfl
      rwa [Option.some.inj hinum]
    · intro hlive
      have hname := List.find?_some hfind
      refine ⟨_, hr, fun _ => ⟨e, List.mem_of_find?_eq_some hfind, by simpa using hname, hlive e rfl, rfl⟩,
        fun e' he' => ?_⟩
      rw [find?_live_of_first hfind (hlive e rfl)] at he'
      rw [Option.some.inj he']

end Ext2

/-- **A lookup finds what is in use** if and only if the first record with the name is in use, and there is memory for
the buffer, unless the directory is empty. If the size of the directory is negative as an `off_t`, nothing is found, and
none may be in use. -/
theorem ext2_dir_lookup_live_iff (fs : Ext2) (disk : ℕ → UInt8) (dir : Inode) (name : List Char8) {β : Type}
    (sbrk : Libc.Sbrk β) (heap : Libc.Data β) (hlog : fs.logBlockSize ≤ 2) (h : fs.FormedDir disk dir) :
    fs.FindsLive disk dir sbrk heap name ↔
      if dir.size < 2 ^ 31 then
        (dir.size = 0 ∨ Libc.Obtains sbrk heap fs.bufferSize) ∧
          ∀ e, ((fs.scannedEntries disk dir).find? fun e => e.name = name) = some e → e.inode ≠ 0
      else ∀ e ∈ fs.scannedEntries disk dir, e.name = name → e.inode = 0 := by
  split_ifs with hsize
  · by_cases hbuf : Libc.Obtains sbrk heap fs.bufferSize
    · rw [and_iff_right (Or.inr hbuf)]
      exact h.findsLive_iff hlog hsize hbuf name
    · have hr := h.lookup_null hlog hsize hbuf name
      by_cases hempty : dir.size = 0
      · -- there are no records
        have hnil : fs.scannedEntries disk dir = [] := by
          rw [Ext2.scannedEntries, Ext2.scannedBlocks, hempty, Nat.zero_div, Nat.zero_min]
          rfl
        rw [if_pos hempty] at hr
        refine iff_of_true ⟨_, hr, fun hone => absurd hone (by decide), ?_⟩ ⟨Or.inl hempty, ?_⟩
        · simp [hnil]
        · simp [hnil]
      · rw [if_neg hempty] at hr
        refine iff_of_false ?_ fun hcond => not_or.mpr ⟨hempty, hbuf⟩ hcond.1
        rintro ⟨r, hr', -⟩
        exact absurd (hr.symm.trans hr') (by simp)
  · -- The first read fails, and the lookup returns 0.
    have hr := h.lookup_large hlog (not_lt.mp hsize) sbrk heap name
    constructor
    · rintro ⟨r, hr', -, hlive⟩ e he hname
      by_contra hne
      obtain rfl := Option.some.inj (hr.symm.trans hr')
      obtain ⟨e', he'⟩ := Option.isSome_iff_exists.mp
        (List.find?_isSome (p := fun e : Entry => decide (e.name = name ∧ e.inode ≠ 0)).mpr
          ⟨e, he, by simp [hname, hne]⟩)
      exact absurd (hlive e' he') (by simp)
    · intro hnone
      refine ⟨_, hr, fun hone => absurd hone (by decide), fun e he => ?_⟩
      have hlive := List.find?_some he
      simp only [decide_eq_true_eq] at hlive
      exact absurd (hnone e (List.mem_of_find?_eq_some he) hlive.1) hlive.2

/-- A disk with one record in the block 20 of 1024 bytes: its name is `a`. -/
def oneRecord (inum : UInt8) (a : ℕ) : UInt8 :=
  if a = 20480 then inum
  else if a = 20485 then 4
  else if a = 20486 then 1
  else if a = 20488 then 97
  else 0

/-- A directory of one block. -/
def oneBlock : Inode := ⟨0x41ED, 1024, [20]⟩

theorem formedDir_oneBlock {disk : ℕ → UInt8}
    (h : WellFormed 1024 ((Ext2.serving 0 disk).blockBytes disk oneBlock 0) 1024 0) :
    (Ext2.serving 0 disk).FormedDir disk oneBlock := by
  have hbs : (Ext2.serving 0 disk).blockSize = 1024 := rfl
  have hblocks : (Ext2.serving 0 disk).scannedBlocks oneBlock = 1 := by
    rw [Ext2.scannedBlocks, hbs]
    rfl
  refine ⟨by decide, by decide, by rw [hbs]; rfl, fun k hk => ?_, fun k hk => ?_⟩
  · obtain rfl : k = 0 := by omega
    exact Ext2.readsBlock_serving (show 20 * 1024 < 2 ^ 32 by norm_num)
  · obtain rfl : k = 0 := by omega
    exact h

/-- A record in use is found. -/
theorem ext2_dir_lookup_live_one :
    (Ext2.serving 0 (oneRecord 12)).FormedDir (oneRecord 12) oneBlock ∧
      (Ext2.serving 0 (oneRecord 12)).FindsLive (oneRecord 12) oneBlock (Libc.contiguousSbrk true) bootHeap [97] := by
  have hformed : (Ext2.serving 0 (oneRecord 12)).FormedDir (oneRecord 12) oneBlock :=
    formedDir_oneBlock (by decide +kernel)
  refine ⟨hformed, (ext2_dir_lookup_live_iff _ _ _ [97] (Libc.contiguousSbrk true) bootHeap (by decide) hformed).mpr ?_⟩
  rw [if_pos (by decide)]
  refine ⟨Or.inr obtains_bootHeap, fun e he => ?_⟩
  have hfirst : ((Ext2.serving 0 (oneRecord 12)).scannedEntries (oneRecord 12) oneBlock).find?
      (fun e => e.name = [97]) = some ⟨12, [97]⟩ := by decide +kernel
  obtain rfl := Option.some.inj (hfirst.symm.trans he)
  decide

/-- An unused record is found as well, and has the inode 0. -/
theorem not_findsLive_unused :
    (Ext2.serving 0 (oneRecord 0)).FormedDir (oneRecord 0) oneBlock ∧
      Libc.Obtains (Libc.contiguousSbrk true) bootHeap 1024 ∧
      ¬ (Ext2.serving 0 (oneRecord 0)).FindsLive (oneRecord 0) oneBlock (Libc.contiguousSbrk true) bootHeap [97] := by
  refine ⟨formedDir_oneBlock (by decide +kernel), obtains_bootHeap, ?_⟩
  rintro ⟨r, hr, hone, -⟩
  have hlookup : (Ext2.serving 0 (oneRecord 0)).ext2DirLookup oneBlock [97] =
      some (1, some 0) := by decide +kernel
  rw [Ext2.ext2DirLookupOn_of_obtains obtains_bootHeap] at hr
  obtain rfl := Option.some.inj (hlookup.symm.trans hr)
  obtain ⟨e, -, -, hlive, hinum⟩ := hone rfl
  exact hlive (Option.some.inj hinum).symm

end I80k.Kernel

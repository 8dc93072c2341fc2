import I80k.Kernel.Ext2.InodeAddr

/-!
# The directories on a disk

What a lookup should find: the records of a directory are those of the blocks that its inode
designates, a name is there if a record in use has it, and an inode is where the tables of its group
say. The driver agrees with the disk on a directory if it maps the blocks up to the one with the name,
if that one is among the blocks that it scans, and the first record with the name is in use; and on an
inode whose offset in its table fits in 16 bits.

## Main definitions

* `Entry`, `parseRecords`, `WellFormed`: the records of a block
* `dirEntries`, `lookupEntry`: the records of a directory, and the search for a name in use
* `Ext2.diskInode`: an inode, where it is on the disk
* `Ext2.SoundDir`: a directory of a consistent image
* `Ext2.firstEntry`, `Ext2.Searches`: the first record with a name, and the blocks up to it

## Main results

* `Ext2.scan_eq`: the driver finds the first record with a name in a block
* `Ext2.SoundDir.dirLookup`: and in a directory
* `Ext2.lookupEntry_eq`: it is the one that the disk has under the name
* `Ext2.Delivers.loadInode`: an inode is loaded as it is on the disk
-/

namespace I80k.Kernel

/-! ## What the disk says -/

/-- A record of a directory: its inode, 0 for an unused one, and its name. -/
structure Entry where
  inode : ℕ
  name : List Char8
  deriving DecidableEq

/-- The length of the record at `pos`. -/
def recLen (buf : List UInt8) (pos : ℕ) : ℕ := le16 buf (pos + 4)

/-- The length of the name of the record at `pos`. -/
def nameLen (buf : List UInt8) (pos : ℕ) : ℕ := (buf.getD (pos + 6) 0).toNat

/-- The record at `pos`. -/
def entryAt (buf : List UInt8) (pos : ℕ) : Entry :=
  ⟨le32 buf pos, (buf.drop (pos + 8)).take (nameLen buf pos)⟩

/-- The records of a block from `pos` on, `fuel` of them at most. -/
def parseRecords (bs : ℕ) (buf : List UInt8) : ℕ → ℕ → List Entry
  | 0, _ => []
  | fuel + 1, pos =>
    if bs ≤ pos then [] else entryAt buf pos :: parseRecords bs buf fuel (pos + recLen buf pos)

/-- The records from `pos` on have room for their names, are aligned, and fill the block. -/
def WellFormed (bs : ℕ) (buf : List UInt8) : ℕ → ℕ → Prop
  | 0, pos => pos = bs
  | fuel + 1, pos => pos = bs ∨
      recLen buf pos % 4 = 0 ∧ 8 + nameLen buf pos ≤ recLen buf pos ∧ pos + recLen buf pos ≤ bs ∧
        WellFormed bs buf fuel (pos + recLen buf pos)

instance decidableWellFormed (bs : ℕ) (buf : List UInt8) : ∀ fuel pos, Decidable (WellFormed bs buf fuel pos)
  | 0, _ => inferInstanceAs (Decidable (_ = _))
  | fuel + 1, pos =>
    have := decidableWellFormed bs buf fuel (pos + recLen buf pos)
    inferInstanceAs (Decidable (_ ∨ _))

section Disk

variable (disk : ℕ → UInt8) (bs : ℕ)

/-- Block `k` of a directory. -/
def dirBlock (dir : Inode) (k : ℕ) : List UInt8 :=
  Ext2.diskBlock disk bs (designated disk bs dir k)

/-- The records of the blocks of a directory, in order. -/
def dirEntries (dir : Inode) : List Entry :=
  (List.range (dir.size / bs)).flatMap fun k => parseRecords bs (dirBlock disk bs dir k) bs 0

/-- The inode of a name in a directory. -/
def lookupEntry (dir : Inode) (name : List Char8) : Option ℕ :=
  ((dirEntries disk bs dir).find? fun e => e.name = name ∧ e.inode ≠ 0).map Entry.inode

end Disk

namespace Ext2

/-- The inode, where it is on the disk. -/
def diskInode (fs : Ext2) (disk : ℕ → UInt8) (num : ℕ) : Inode :=
  parseInode ((List.range 128).map fun i => disk (fs.inodeAddr num + i))

/-- The number of blocks that a lookup goes through. -/
def scannedBlocks (fs : Ext2) (dir : Inode) : ℕ := min (dir.size / fs.blockSize) 1025

/-- The records of the blocks from `k` on, `m` of them. -/
def records (bs : ℕ) (block : ℕ → List UInt8) (k m : ℕ) : List Entry :=
  (List.range' k m).flatMap fun k => parseRecords bs (block k) bs 0

section Directory

variable (fs : Ext2) (disk : ℕ → UInt8) (dir : Inode) (name : List Char8)

/-- A directory of a consistent image: it has whole blocks of data, and their records are well formed. -/
structure SoundDir : Prop where
  pos : 0 < dir.size
  lt : dir.size < 2 ^ 32
  whole : dir.size % fs.blockSize = 0
  data : ∀ k < dir.size / fs.blockSize, designated disk fs.blockSize dir k ≠ 0
  formed : ∀ k < dir.size / fs.blockSize,
    WellFormed fs.blockSize (dirBlock disk fs.blockSize dir k) fs.blockSize 0

/-- The first record with the name, in use or not, in the blocks that a lookup goes through. -/
def firstEntry : Option Entry :=
  (records fs.blockSize (dirBlock disk fs.blockSize dir) 0 (fs.scannedBlocks dir)).find? fun e => e.name = name

/-- A lookup searches block `k`: no record of the blocks before it has the name. -/
def Searches (k : ℕ) : Prop :=
  k < fs.scannedBlocks dir ∧
    ∀ j < k, ∀ e ∈ parseRecords fs.blockSize (dirBlock disk fs.blockSize dir j) fs.blockSize 0, e.name ≠ name

instance : Decidable (fs.SoundDir disk dir) :=
  decidable_of_iff
    (0 < dir.size ∧ dir.size < 2 ^ 32 ∧ dir.size % fs.blockSize = 0 ∧
      (∀ k < dir.size / fs.blockSize, designated disk fs.blockSize dir k ≠ 0) ∧
      ∀ k < dir.size / fs.blockSize,
        WellFormed fs.blockSize (dirBlock disk fs.blockSize dir k) fs.blockSize 0)
    ⟨fun ⟨h₁, h₂, h₃, h₄, h₅⟩ => ⟨h₁, h₂, h₃, h₄, h₅⟩, fun ⟨h₁, h₂, h₃, h₄, h₅⟩ => ⟨h₁, h₂, h₃, h₄, h₅⟩⟩

instance (k : ℕ) : Decidable (fs.Searches disk dir name k) := inferInstanceAs (Decidable (_ ∧ _))

/-- What holds of all blocks that a lookup searches. -/
instance decidableSearches (p : ℕ → Prop) [DecidablePred p] : Decidable (∀ k, fs.Searches disk dir name k → p k) :=
  decidable_of_iff (∀ k < fs.scannedBlocks dir, fs.Searches disk dir name k → p k)
    ⟨fun h k hk => h k hk.1 hk, fun h k _ hk => h k hk⟩

/-- The driver reads the blocks that a lookup searches. -/
structure ScansDir : Prop where
  size : dir.size < 2 ^ 31
  narrow : ∀ k, fs.Searches disk dir name k → dir.Narrow disk fs.blockSize k
  cached : ∀ k, fs.Searches disk dir name k → dir.Cached disk fs.blockSize fs k
  fits : ∀ k, fs.Searches disk dir name k → designated disk fs.blockSize dir k * fs.blockSize + fs.blockSize ≤ 2 ^ 31

end Directory

variable {fs : Ext2} {disk : ℕ → UInt8}

/-! ## The driver agrees -/

/-- **An inode is loaded as it is on the disk**, if its number is not null, and its offset in the table of
its group has 16 bits. -/
theorem Delivers.loadInode (h : fs.Delivers disk) (hlog : fs.logBlockSize ≤ 2) {num : ℕ} (hpos : 1 ≤ num)
    (hlt : num ≤ 2 ^ 32) (hoffset : fs.inodeOffset num < 2 ^ 16) (hfits : fs.inodeAddr num + 128 ≤ 2 ^ 31) :
    fs.ext2LoadInode num = .ok (fs.diskInode disk num) := by
  obtain ⟨-, hlo, -, -⟩ := blockSize_of_le hlog
  have hoff : toUint (fs.inodeOffset num) = fs.inodeOffset num := toUint_of_lt hoffset
  have haddr : fs.loadAddr num = fs.inodeAddr num := by
    rw [inodeAddr_eq] at hfits ⊢
    rw [loadAddr_eq (by omega) hpos hlt (by omega), hoff]
  have hneg : ¬ (fs.blkRead (fs.inodeAddr num) 128).1 < 0 :=
    Int16.not_lt.mpr (h.result _ _ (by norm_num) hfits)
  rw [ext2LoadInode_eq, haddr, if_neg hneg, h.bytes _ _ (by norm_num) hfits]
  rfl

/-- The name at a position, in the words of the driver. -/
theorem nameMatches_iff {bs pos : ℕ} {buf : List UInt8} {name : List Char8} (hbuf : bs ≤ buf.length)
    (hfit : pos + 8 + nameLen buf pos ≤ bs) :
    NameMatches buf pos name ↔ (entryAt buf pos).name = name := by
  have hlen : (entryAt buf pos).name.length = nameLen buf pos := by
    simp only [entryAt, List.length_take, List.length_drop]
    omega
  constructor
  · rintro ⟨h₁, h₂⟩
    have h₁' : nameLen buf pos = name.length := h₁
    rw [entryAt, h₁', h₂]
  · rintro rfl
    refine ⟨hlen.symm, ?_⟩
    rw [hlen]
    rfl

/-- The record at `pos` is in the block, whatever is in memory after the block. -/
theorem record_append {bs pos : ℕ} {block : List UInt8} (hblock : block.length = bs) (rest : List UInt8)
    (hfit : pos + 8 + nameLen block pos ≤ bs) :
    recLen (block ++ rest) pos = recLen block pos ∧ nameLen (block ++ rest) pos = nameLen block pos ∧
      entryAt (block ++ rest) pos = entryAt block pos := by
  have hbyte : ∀ i < bs, (block ++ rest).getD i 0 = block.getD i 0 := by
    intro i hi
    exact List.getD_append _ _ _ _ (by omega)
  have hname : nameLen (block ++ rest) pos = nameLen block pos := by
    rw [nameLen, hbyte _ (by omega), nameLen]
  refine ⟨?_, hname, ?_⟩
  · rw [recLen, le16, hbyte _ (by omega), hbyte _ (by omega), recLen, le16]
  · rw [entryAt, hname, List.drop_append_of_le_length (by omega), entryAt,
      List.take_append_of_le_length (by rw [List.length_drop]; omega)]
    congr 1
    simp only [le32, le16]
    rw [hbyte _ (by omega), hbyte _ (by omega), hbyte _ (by omega), hbyte _ (by omega)]

/-- The records of a block are in it, whatever is in memory after it. -/
theorem parseRecords_append {bs : ℕ} {block : List UInt8} (hblock : block.length = bs) (rest : List UInt8)
    (fuel : ℕ) : ∀ {pos : ℕ}, WellFormed bs block fuel pos →
      WellFormed bs (block ++ rest) fuel pos ∧
        parseRecords bs (block ++ rest) fuel pos = parseRecords bs block fuel pos := by
  induction fuel with
  | zero => exact fun h => ⟨h, rfl⟩
  | succ fuel ih =>
    rintro pos (hpos | ⟨halign, hname, hfit, hrest⟩)
    · exact ⟨Or.inl hpos, by simp [parseRecords, hpos]⟩
    · obtain ⟨hrec, hlen, hentry⟩ := record_append hblock rest (show pos + 8 + nameLen block pos ≤ bs by omega)
      obtain ⟨hformed, hparse⟩ := ih hrest
      rw [WellFormed, parseRecords, parseRecords, hrec, hlen, hentry, hparse]
      exact ⟨Or.inr ⟨halign, hname, hfit, hformed⟩, rfl⟩

/-- **The scan of a block** finds the first record with the name. -/
theorem scan_eq {buf : List UInt8} {name : List Char8} (hbs : fs.blockSize ≤ 4096)
    (hbuf : fs.blockSize ≤ buf.length) (fuel : ℕ) :
    ∀ {pos n : ℕ}, WellFormed fs.blockSize buf fuel pos → fuel < n →
      fs.scan buf name n pos =
        some (((parseRecords fs.blockSize buf fuel pos).find? fun e => e.name = name).map Entry.inode) := by
  -- Record by record; a record ends at the end of the block, at the latest.
  induction fuel with
  | zero =>
    intro pos n h hn
    obtain ⟨n, rfl⟩ : ∃ k, n = k + 1 := ⟨n - 1, by omega⟩
    have hpos : pos = fs.blockSize := h
    simp [scan, parseRecords, hpos]
  | succ fuel ih =>
    intro pos n h hn
    obtain ⟨n, rfl⟩ : ∃ k, n = k + 1 := ⟨n - 1, by omega⟩
    rw [scan, parseRecords]
    rcases h with hpos | ⟨halign, hname, hfit, hrest⟩
    · simp [hpos]
    · have hlt : ¬ fs.blockSize ≤ pos := by omega
      have hrec : ¬ le16 buf (pos + 4) = 0 := by
        intro h₀
        rw [recLen, h₀] at hname
        omega
      -- An aligned record is not rounded up, and the sum has 16 bits.
      have hnext : toUint (pos + roundup4 (le16 buf (pos + 4))) = pos + recLen buf pos := by
        have hround : roundup4 (le16 buf (pos + 4)) = recLen buf pos := by
          have hlt' : recLen buf pos + 3 < 2 ^ 16 := by omega
          rw [roundup4, toUint, show le16 buf (pos + 4) = recLen buf pos from rfl,
            Nat.mod_eq_of_lt hlt']
          omega
        rw [hround]
        exact Nat.mod_eq_of_lt (by omega)
      have hmatch := @nameMatches_iff fs.blockSize pos buf name hbuf (by omega)
      rw [if_neg hlt, if_neg hrec, if_neg hlt, hnext, ih hrest (by omega), List.find?_cons]
      by_cases hn : (entryAt buf pos).name = name
      · rw [if_pos (hmatch.mpr hn), decide_eq_true hn]
        rfl
      · rw [if_neg (mt hmatch.mp hn)]
        simp [hn]

/-- A directory is not a regular file, so its length is that of the inode. -/
theorem fileLen_of_isDir {dir : Inode} (hdir : dir.IsDir) : fs.ext2FileLen dir = toOff dir.size := by
  have hreg : ¬ dir.IsReg := by
    intro h
    rw [Inode.IsReg, hdir] at h
    simp at h
  simp [ext2FileLen, hreg]

/-- Reading a block of a directory. -/
theorem readInode_block {dir : Inode} (hdir : dir.IsDir) (hlog : fs.logBlockSize ≤ 2)
    (hsize : dir.size < 2 ^ 31) {k : ℕ} (hk : k < 2 ^ 16) (hle : k * fs.blockSize + fs.blockSize ≤ dir.size) :
    (fs.ext2ReadInode dir (toUint32 (k * fs.blockSize)) (toUint fs.blockSize)).1 =
        Int16.ofNat fs.blockSize ∧
      (fs.ext2ReadInode dir (toUint32 (k * fs.blockSize)) (toUint fs.blockSize)).2.bytes =
        (fs.readFileBlock dir k).take fs.blockSize := by
  obtain ⟨-, hlo, hhi, hper⟩ := blockSize_of_le hlog
  have hoff : toUint32 (k * fs.blockSize) = k * fs.blockSize := toUint32_of_lt (by omega)
  have hlen : toUint fs.blockSize = fs.blockSize := toUint_of_lt (by omega)
  have htrim : fs.trimLen dir (k * fs.blockSize) fs.blockSize = fs.blockSize := by
    rw [trimLen, fileLen_of_isDir hdir, toOff_of_lt (by omega), toOff_of_lt (by omega),
      toOff_of_lt (by omega), if_neg (by omega)]
    split_ifs with hend
    · omega
    · rfl
  have hdiv : k * fs.blockSize / fs.blockSize = k := Nat.mul_div_cancel _ (by omega)
  rw [hoff, hlen, ext2ReadInode]
  simp only [htrim, hdiv, toUint_of_lt hk, Nat.mul_mod_left]
  rw [if_neg (by omega), if_neg (by simp)]
  refine ⟨rfl, ?_⟩
  obtain ⟨fuel, hfuel⟩ : ∃ fuel, fs.blockSize + 1 = fuel + 2 := ⟨fs.blockSize - 1, by omega⟩
  rw [hfuel, readBlocks, if_pos le_rfl, Nat.sub_self, readBlocks, if_neg (by omega), if_neg (by simp)]
  simp only [Transfer.append, copyOut, List.drop_zero, List.append_nil]

/-- Reading past the end of a directory gives nothing. -/
theorem readInode_end {dir : Inode} (hdir : dir.IsDir) (hlog : fs.logBlockSize ≤ 2)
    (hwhole : dir.size % fs.blockSize = 0) (hsize : dir.size < 2 ^ 30) :
    (fs.ext2ReadInode dir (toUint32 (dir.size / fs.blockSize * fs.blockSize)) (toUint fs.blockSize)).1 =
      0 := by
  obtain ⟨-, hlo, hhi, hper⟩ := blockSize_of_le hlog
  have hend : dir.size / fs.blockSize * fs.blockSize = dir.size :=
    Nat.div_mul_cancel (Nat.dvd_of_mod_eq_zero hwhole)
  have hoff : toUint32 dir.size = dir.size := toUint32_of_lt (by omega)
  have hlen : toUint fs.blockSize = fs.blockSize := toUint_of_lt (by omega)
  have htrim : fs.trimLen dir dir.size fs.blockSize = 0 := by
    rw [trimLen, fileLen_of_isDir hdir, toOff_of_lt (by omega), toOff_of_lt (by omega),
      if_neg (by omega), if_pos (by omega)]
    omega
  rw [hend, hoff, hlen, ext2ReadInode, htrim]
  rfl

/-- The driver reads the blocks `0`, …, `n - 1` of a directory, and their records are well formed. -/
structure ReadsBlocks (fs : Ext2) (dir : Inode) (block : ℕ → List UInt8) (n : ℕ) : Prop where
  read : ∀ k < n, (fs.ext2ReadInode dir (toUint32 (k * fs.blockSize)) (toUint fs.blockSize)).1 =
      Int16.ofNat fs.blockSize ∧
    (fs.ext2ReadInode dir (toUint32 (k * fs.blockSize)) (toUint fs.blockSize)).2.bytes = block k
  length : ∀ k < n, (block k).length = fs.blockSize
  formed : ∀ k < n, WellFormed fs.blockSize (block k) fs.blockSize 0

/-- **The loop over the blocks**: the first record with the name in them, if there is one; else the loop
goes on after them. -/
theorem ReadsBlocks.dirBlocks {dir : Inode} {block : ℕ → List UInt8} {n : ℕ}
    (h : fs.ReadsBlocks dir block n) (hlog : fs.logBlockSize ≤ 2) (name : List Char8) (m : ℕ) :
    ∀ (k fuel : ℕ) (buf : List UInt8), k + m ≤ n → m ≤ fuel →
      ∃ buf', fs.dirBlocks dir name fuel k buf =
        match (records fs.blockSize block k m).find? fun e => e.name = name with
        | some e => some (1, some e.inode)
        | none => fs.dirBlocks dir name (fuel - m) (k + m) buf' := by
  obtain ⟨-, hlo, hhi, -⟩ := blockSize_of_le hlog
  induction m with
  | zero => exact fun _ _ buf _ _ => ⟨buf, rfl⟩
  | succ m ih =>
    intro k fuel buf hk hfuel
    obtain ⟨fuel, rfl⟩ : ∃ f, fuel = f + 1 := ⟨fuel - 1, by omega⟩
    obtain ⟨hres, hbytes⟩ := h.read k (by omega)
    have hlength := h.length k (by omega)
    have hpos : ¬ (Int16.ofNat fs.blockSize ≤ 0) := by
      rw [Int16.le_iff_toInt_le, int16_toInt_of_lt (by omega)]
      simp only [Int16.toInt_zero]
      omega
    obtain ⟨hformed, hparse⟩ := parseRecords_append hlength (buf.drop (block k).length) fs.blockSize
      (h.formed k (by omega))
    have hscan := @scan_eq fs _ name hhi (by rw [List.length_append]; omega) fs.blockSize _ _ hformed
      (show fs.blockSize < 2 ^ 16 + 1 by omega)
    obtain ⟨buf', hrest⟩ := ih (k + 1) fuel (block k ++ buf.drop (block k).length) (by omega) (by omega)
    refine ⟨buf', ?_⟩
    rw [Ext2.dirBlocks]
    dsimp only
    rw [hres, if_neg hpos, hbytes, hscan, hparse, records, List.range'_succ, List.flatMap_cons,
      List.find?_append]
    -- The name is in this block, or in one of those after it.
    cases hfind : (parseRecords fs.blockSize (block k) fs.blockSize 0).find? fun e => e.name = name with
    | some e => rfl
    | none =>
      simp only [Option.map_none, Option.none_or]
      rw [hrest, show fuel + 1 - (m + 1) = fuel - m by omega, show k + (m + 1) = k + 1 + m by omega]
      rfl

/-- The blocks that a lookup searches are read as they are on the disk. -/
theorem SoundDir.readsBlocks {dir : Inode} {name : List Char8} (h : fs.SoundDir disk dir)
    (hscan : fs.ScansDir disk dir name) (hdir : dir.IsDir) (hdelivers : fs.Delivers disk)
    (hlog : fs.logBlockSize ≤ 2) {n : ℕ} (hsearch : ∀ k < n, fs.Searches disk dir name k) :
    fs.ReadsBlocks dir (dirBlock disk fs.blockSize dir) n := by
  obtain ⟨-, hlo, hhi, hper⟩ := blockSize_of_le hlog
  have hlt : ∀ k < n, k < dir.size / fs.blockSize ∧ k < 1025 := fun k hk => lt_min_iff.mp (hsearch k hk).1
  refine ⟨fun k hk => ?_, fun k _ => by simp [dirBlock, diskBlock], fun k hk => h.formed k (hlt k hk).1⟩
  obtain ⟨hk₁, hk₂⟩ := hlt k hk
  have hle : k * fs.blockSize + fs.blockSize ≤ dir.size := by
    have := Nat.mul_le_of_le_div _ _ _ (Nat.succ_le_of_lt hk₁)
    rwa [Nat.succ_mul] at this
  have hblock : fs.fileBlockToFsBlock dir k = designated disk fs.blockSize dir k :=
    hdelivers.fileBlockToFsBlock hlog (lt_reach (by omega) (by omega)) (hscan.narrow k (hsearch k hk))
      (hscan.cached k (hsearch k hk))
  obtain ⟨hres, hbytes⟩ := readInode_block hdir hlog hscan.size (show k < 2 ^ 16 by omega) hle
  refine ⟨hres, hbytes.trans ?_⟩
  have hread := (hdelivers.readBlock hhi (hscan.fits k (hsearch k hk))).2
  simp only [readFileBlock, hblock, if_neg (h.data k hk₁), hread, dirBlock]
  exact List.take_of_length_le (by simp [diskBlock])

theorem records_append (bs : ℕ) (block : ℕ → List UInt8) (k m n : ℕ) :
    records bs block k (m + n) = records bs block k m ++ records bs block (k + m) n := by
  rw [records, records, records, ← List.flatMap_append, List.range'_append_1]

/-- The first record with the name is in the blocks that a lookup searches. -/
theorem exists_searches (fs : Ext2) (disk : ℕ → UInt8) (dir : Inode) (name : List Char8) :
    ∃ n ≤ fs.scannedBlocks dir, (∀ k < n, fs.Searches disk dir name k) ∧
      ((records fs.blockSize (dirBlock disk fs.blockSize dir) 0 n).find? fun e => e.name = name) =
        fs.firstEntry disk dir name ∧
      (fs.firstEntry disk dir name = none → n = fs.scannedBlocks dir) := by
  by_cases hex : ∃ k, k < fs.scannedBlocks dir ∧
      ∃ e ∈ parseRecords fs.blockSize (dirBlock disk fs.blockSize dir k) fs.blockSize 0, e.name = name
  · -- the first block with the name is the last one that it searches
    classical
    obtain ⟨hlt, e, he, hname⟩ := Nat.find_spec hex
    have hbefore : ∀ j < Nat.find hex,
        ∀ e ∈ parseRecords fs.blockSize (dirBlock disk fs.blockSize dir j) fs.blockSize 0, e.name ≠ name :=
      fun j hj e he hname => Nat.find_min hex hj ⟨hj.trans hlt, e, he, hname⟩
    have hsome : ((records fs.blockSize (dirBlock disk fs.blockSize dir) 0 (Nat.find hex + 1)).find?
        fun e => e.name = name).isSome := by
      refine List.find?_isSome.mpr ⟨e, ?_, by simp [hname]⟩
      exact List.mem_flatMap.mpr ⟨Nat.find hex, by simp [List.mem_range'_1], he⟩
    obtain ⟨first, hfirst⟩ := Option.isSome_iff_exists.mp hsome
    obtain ⟨rest, hrest⟩ := Nat.exists_eq_add_of_le (Nat.succ_le_of_lt hlt)
    have hfind : fs.firstEntry disk dir name = some first := by
      rw [firstEntry, hrest, Nat.succ_eq_add_one, records_append, List.find?_append, hfirst, Option.some_or]
    refine ⟨Nat.find hex + 1, hlt, fun k hk => ⟨by omega, fun j hj => hbefore j (by omega)⟩, ?_, ?_⟩
    · rw [hfirst, hfind]
    · simp [hfind]
  · refine ⟨fs.scannedBlocks dir, le_rfl, fun k hk => ⟨hk, fun j hj e he hname => ?_⟩, rfl, fun _ => rfl⟩
    exact hex ⟨j, hj.trans hk, e, he, hname⟩

/-- **The lookup of a name** finds the first record with it, in use or not, and gives up after 1025 blocks. -/
theorem SoundDir.dirLookup {dir : Inode} {name : List Char8} (h : fs.SoundDir disk dir)
    (hscan : fs.ScansDir disk dir name) (hdir : dir.IsDir) (hdelivers : fs.Delivers disk)
    (hlog : fs.logBlockSize ≤ 2) :
    fs.ext2DirLookup dir name = some (match fs.firstEntry disk dir name with
      | some e => (1, some e.inode)
      | none => if dir.size ≤ 1024 * fs.blockSize then (0, none) else (-1, none)) := by
  obtain ⟨-, hlo, hhi, hper⟩ := blockSize_of_le hlog
  obtain ⟨n, hn, hsearch, hfind, hall⟩ := exists_searches fs disk dir name
  have hmin : fs.scannedBlocks dir ≤ 1025 := min_le_right _ _
  obtain ⟨buf', hlookup⟩ := (h.readsBlocks hscan hdir hdelivers hlog hsearch).dirBlocks hlog name n 0 1025
    fs.fresh (by omega) (by omega)
  rw [ext2DirLookup, if_neg (not_not.mpr hdir), hlookup, hfind]
  cases hfirst : fs.firstEntry disk dir name with
  | some e => rfl
  | none =>
    obtain rfl := hall hfirst
    have hwhole : fs.blockSize * (dir.size / fs.blockSize) = dir.size :=
      Nat.mul_div_cancel' (Nat.dvd_of_mod_eq_zero h.whole)
    simp only
    -- Either the directory ends, or the lookup has gone through 1025 blocks.
    split_ifs with hsmall
    · have hblocks : dir.size / fs.blockSize < 1025 := Nat.div_lt_of_lt_mul (by omega)
      obtain ⟨fuel, hfuel⟩ : ∃ f, 1025 - dir.size / fs.blockSize = f + 1 :=
        ⟨1024 - dir.size / fs.blockSize, by omega⟩
      rw [scannedBlocks, min_eq_left hblocks.le, hfuel, Nat.zero_add, Ext2.dirBlocks]
      dsimp only
      rw [readInode_end hdir hlog h.whole (by omega), if_pos (show (0 : Int16) ≤ 0 by decide)]
    · have hblocks : 1025 ≤ dir.size / fs.blockSize := by
        by_contra hlt
        have := Nat.mul_le_mul_left fs.blockSize (show dir.size / fs.blockSize ≤ 1024 by omega)
        omega
      rw [scannedBlocks, min_eq_right hblocks, Nat.sub_self, Ext2.dirBlocks]

/-- If the first record with the name is in use, it is also the first one in use. -/
theorem find?_live_of_first {entries : List Entry} {name : List Char8} {e : Entry}
    (h : (entries.find? fun e => e.name = name) = some e) (hlive : e.inode ≠ 0) :
    (entries.find? fun e => e.name = name ∧ e.inode ≠ 0) = some e := by
  rw [List.find?_eq_some_iff_append] at h ⊢
  obtain ⟨hname, before, after, rfl, hbefore⟩ := h
  refine ⟨by simpa [hlive] using hname, before, after, rfl, fun a ha => ?_⟩
  have := hbefore a ha
  simp only [Bool.not_eq_eq_eq_not, Bool.not_true, decide_eq_false_iff_not] at this ⊢
  exact fun h => this h.1

/-- **What the disk has under the name** is what a lookup finds, if it comes to the name, and the first record with it
is in use. -/
theorem lookupEntry_eq {dir : Inode} {name : List Char8}
    (hreach : (lookupEntry disk fs.blockSize dir name).isSome → (fs.firstEntry disk dir name).isSome)
    (hlive : ∀ e ∈ fs.firstEntry disk dir name, e.inode ≠ 0) :
    lookupEntry disk fs.blockSize dir name = (fs.firstEntry disk dir name).map Entry.inode := by
  cases hfirst : fs.firstEntry disk dir name with
  | none =>
    rw [hfirst] at hreach
    cases hlookup : lookupEntry disk fs.blockSize dir name with
    | none => rfl
    | some inum =>
      rw [hlookup] at hreach
      exact absurd (hreach rfl) (by simp)
  | some e =>
    obtain ⟨rest, hrest⟩ := Nat.exists_eq_add_of_le (min_le_left (dir.size / fs.blockSize) 1025)
    have hlive' := find?_live_of_first hfirst (hlive e hfirst)
    have hentries : dirEntries disk fs.blockSize dir =
        records fs.blockSize (dirBlock disk fs.blockSize dir) 0 (fs.scannedBlocks dir + rest) := by
      rw [dirEntries, List.range_eq_range', scannedBlocks, ← hrest]
      rfl
    rw [lookupEntry, hentries, records_append, List.find?_append, hlive', Option.some_or]

end Ext2

end I80k.Kernel

import I80k.Kernel.Ext2.BlockWidth
import I80k.Kernel.Ext2.Lookup

/-!
# The limits of a lookup

Within its limits a lookup is exact if and only if there is memory for its buffer, and no component is missing or
the walk stops. None of the limits can be left out: for each of them there is an image that is within all the
others, and on which this is wrong.

## Main definitions

* `rooted`: the file system on a disk
* `Needed`: there is an image that is within all limits but one, and on which a lookup does something else
* `Runs`: what a lookup returns on such an image
* `longDisk`: a root directory of many blocks, with the file `a` in the last one

## Main results

* `ext2_lookup_exact_iff`: whether a lookup is exact, within the limits; and each of them is needed
-/

namespace I80k.Kernel

/-- The file system on a disk. Its root directory is the inode 2. -/
def rooted (disk : ℕ → UInt8) : Ext2 :=
  { Ext2.serving 0 disk with rootInode := (Ext2.serving 0 disk).diskInode disk 2 }

theorem serves_rooted (disk : ℕ → UInt8) : (rooted disk).Serves disk :=
  have h := Ext2.serves_serving 0 disk
  ⟨h.result, h.bytes, h.alloc⟩

theorem delivers_rooted (disk : ℕ → UInt8) : (rooted disk).Delivers disk := (serves_rooted disk).delivers

/-- On an image within all limits but one, a lookup is exact though a component is missing and the walk does not
stop, or is not exact though none is missing. -/
def Needed (limit : Ext2.Limit) : Prop :=
  ∃ (fs : Ext2) (disk : ℕ → UInt8) (path : List Char8) (inum : ℕ),
    fs.rootInode = fs.diskInode disk 2 ∧ fs.Image disk path inum ∧
      Libc.Obtains (Libc.contiguousSbrk true) bootHeap fs.bufferSize ∧
      (∀ other ≠ limit, fs.Within disk path inum other) ∧
      ¬ (fs.Exact disk (Libc.contiguousSbrk true) bootHeap path inum ↔
        ¬ fs.Missing disk fs.rootInode (components path) ∨ fs.Stops disk fs.rootInode inum (components path))

theorem lookable_slash_cons {c : Char8} (hc : c ≠ slash) : Lookable [slash, c] :=
  ⟨by simp, c, hc, rfl⟩

section Wrong

variable {fs : Ext2} {disk : ℕ → UInt8} {path : List Char8} {inum : ℕ}

/-- On an image within all limits but one, a lookup that starts with `inum` returns `r`. -/
structure Runs (fs : Ext2) (disk : ℕ → UInt8) (path : List Char8) (inum : ℕ) (limit : Ext2.Limit)
    (r : Int16 × ℕ) : Prop where
  logBlockSize : fs.logBlockSize = 0
  root : fs.rootInode.IsDir
  sound : ∀ t ∈ fs.turns disk fs.rootInode inum false (components path),
    fs.SoundDir disk t.dir ∧ (t.astray = false → ∀ num ∈ t.next, fs.NoLink disk num)
  within : ∀ other ≠ limit, fs.Within disk path inum other
  lookup : fs.ext2Lookup path inum = some r

instance (limit : Ext2.Limit) (r : Int16 × ℕ) : Decidable (Runs fs disk path inum limit r) :=
  decidable_of_iff
    (fs.logBlockSize = 0 ∧ fs.rootInode.IsDir ∧
      (∀ t ∈ fs.turns disk fs.rootInode inum false (components path),
        fs.SoundDir disk t.dir ∧ (t.astray = false → ∀ num ∈ t.next, fs.NoLink disk num)) ∧
      (∀ other ≠ limit, fs.Within disk path inum other) ∧ fs.ext2Lookup path inum = some r)
    ⟨fun ⟨h₁, h₂, h₃, h₄, h₅⟩ => ⟨h₁, h₂, h₃, h₄, h₅⟩, fun ⟨h₁, h₂, h₃, h₄, h₅⟩ => ⟨h₁, h₂, h₃, h₄, h₅⟩⟩

variable {limit : Ext2.Limit} {r : Int16 × ℕ}

theorem Runs.obtains (h : Runs fs disk path inum limit r) :
    Libc.Obtains (Libc.contiguousSbrk true) bootHeap fs.bufferSize := by
  have hsize : fs.bufferSize = 1024 := by
    rw [Ext2.bufferSize, Ext2.blockSize, h.logBlockSize]
    rfl
  exact hsize ▸ obtains_bootHeap

theorem Runs.image (h : Runs fs disk path inum limit r) (hdelivers : fs.Delivers disk) (hpath : Lookable path) :
    fs.Image disk path inum :=
  ⟨hdelivers, by rw [h.logBlockSize]; norm_num, h.root, hpath, h.sound⟩

/-- A lookup is not exact if it does not return the inode that the path designates. -/
theorem Runs.needed (h : Runs fs disk path inum limit r) (hloaded : fs.rootInode = fs.diskInode disk 2)
    (hdelivers : fs.Delivers disk) (hpath : Lookable path) {found : ℕ}
    (hres : fs.resolve disk fs.rootInode (components path) = some found) (hr : r.1 < 0 ∨ r.2 ≠ found) :
    Needed limit := by
  refine ⟨fs, disk, path, inum, hloaded, h.image hdelivers hpath, h.obtains, h.within, fun hiff => ?_⟩
  -- nothing is missing on a path that designates an inode, so the lookup would have to be exact
  have hexact := hiff.mpr (Or.inl (Ext2.not_missing_of_resolve _ hres))
  rw [Ext2.Exact, hres, Ext2.ext2LookupOn_of_obtains h.obtains, h.lookup] at hexact
  obtain ⟨err, herr, heq⟩ := hexact
  obtain rfl := Option.some.inj heq
  rcases hr with hneg | hne
  · exact absurd herr (Int16.not_le.mpr hneg)
  · exact hne rfl

/-- It is exact if it fails, though the only component of the path is missing, and the walk does not stop. -/
theorem Runs.needed_of_missing (h : Runs fs disk path inum limit r) (hloaded : fs.rootInode = fs.diskInode disk 2)
    (hdelivers : fs.Delivers disk) (hpath : Lookable path) {name : List Char8} (hnames : components path = [name])
    (hname : lookupEntry disk fs.blockSize fs.rootInode name = none)
    (hsmall : fs.rootInode.size ≤ 1024 * fs.blockSize) (hr : r.1 < 0) : Needed limit := by
  have hres : fs.resolve disk fs.rootInode [name] = none := by
    rw [Ext2.resolve, if_pos h.root, hname, Option.bind_none]
  refine ⟨fs, disk, path, inum, hloaded, h.image hdelivers hpath, h.obtains, h.within, ?_⟩
  rw [hnames, Ext2.Exact, hnames, hres, Ext2.ext2LookupOn_of_obtains h.obtains]
  -- the lookup is exact, and the condition does not hold
  intro hiff
  rcases hiff.mp ⟨r.1, r.2, hr, h.lookup⟩ with hnone | hstops
  · exact hnone (Ext2.missing_of_lookup h.root hname hsmall)
  · exact Ext2.not_stops_of_small hname hsmall hstops

end Wrong

/-! ## Images of a few blocks -/

/-- The inodes 2 and 12, of a root directory in the block `b` and of an empty file. -/
def rootAt (b : ℕ) : List (ℕ × List UInt8) :=
  [(5248, [0xED, 0x41, 0, 0, 0, 4]), (5288, Ext2.bytesLe32 b), (6528, [0xA4, 0x81])]

/-- The records `.` and `..`, and one with the given bytes. -/
def dirWith (a : ℕ) (record : List UInt8) : List (ℕ × List UInt8) :=
  [(a, [2, 0, 0, 0, 12, 0, 1, 2, period]), (a + 12, [2, 0, 0, 0, 12, 0, 2, 2, period, period]), (a + 24, record)]

/-- The device fails from 2 GiB on, and the root directory is there. -/
def farDisk : ℕ → UInt8 :=
  diskOf (rootAt (2 ^ 21) ++ dirWith (2 ^ 31) [12, 0, 0, 0, 0xE8, 3, 1, 1, 97])

def far : Ext2 :=
  { rooted farDisk with
    blkRead := fun offset len =>
      if offset + len ≤ 2 ^ 31 then (rooted farDisk).blkRead offset len else (errNoEntry, List.replicate len 0) }

theorem delivers_far : far.Delivers farDisk where
  result offset len hlen hfits := by
    simp only [far, if_pos hfits]
    exact (delivers_rooted farDisk).result offset len hlen hfits
  bytes offset len hlen hfits := by
    simp only [far, if_pos hfits]
    exact (delivers_rooted farDisk).bytes offset len hlen hfits

/-- An unused record has the name, too. -/
def unusedDisk : ℕ → UInt8 :=
  diskOf (rootAt 20 ++ dirWith 20480 [0, 0, 0, 0, 12, 0, 1, 1, 97] ++ [(20516, [12, 0, 0, 0, 0xDC, 3, 1, 1, 97])])

/-- The directory `d` is the inode 513 of a group of 1024, and has the file `a`. -/
def deepDisk : ℕ → UInt8 :=
  diskOf (rootAt 200 ++ dirWith 204800 [1, 2, 0, 0, 0xE8, 3, 1, 2, 100] ++
    [(70656, [0xED, 0x41, 0, 0, 0, 4]), (70696, [201])] ++ dirWith 205824 [12, 0, 0, 0, 0xE8, 3, 1, 1, 97])

def deep : Ext2 :=
  { rooted deepDisk with inodesPerGroup := 1024 }

/-- The inode 13 is that of the symbolic link `l`, with the target `b`, that is not there. -/
def danglingDisk : ℕ → UInt8 :=
  diskOf (rootAt 20 ++ dirWith 20480 [13, 0, 0, 0, 0xE8, 3, 1, 7, 108] ++
    [(6656, [0xFF, 0xA1, 0, 0, 1]), (6696, [98])])

/-! ## Images with a long directory -/

/-- The words of a block with one record for the whole block: a name of one character, or none. -/
def recordRow (inode name : ℕ) : ℕ → ℕ
  | 0 => inode
  | 1 => 1024 + if name = 0 then 0 else 2 ^ 16
  | 2 => name
  | _ => 0

/-- The words of the inodes 2 and 12: a root directory of `n` blocks, and an empty file. -/
def inodeRow (n indirect b j : ℕ) : ℕ :=
  if b = 5 then
    if j = 32 then 0x41ED
    else if j = 33 then n * 1024
    else if 42 ≤ j ∧ j < 54 then 100 + (j - 42)
    else if j = 54 then indirect
    else if j = 55 then 22
    else 0
  else if j = 96 then 0x81A4
  else 0

/-- A disk with the `n` blocks of the root directory from block 100 on: the first one has the records `.` and `..`, the
last one the file `a`, and those between them an unused record. -/
def longRow (n indirect b j : ℕ) : ℕ :=
  if b = 5 ∨ b = 6 then inodeRow n indirect b j
  else if b = indirect then 112 + j
  else if b = 22 then 30 + j
  else if 30 ≤ b ∧ b < 33 then 368 + 256 * (b - 30) + j
  else if b = 100 then [2, 0x201000C, 46, 2, 0x20203F4, 0x2E2E].getD j 0
  else if b + 1 = 100 + n then recordRow 12 97 j
  else recordRow 0 0 j

def longDisk (n indirect : ℕ) : ℕ → UInt8 := ofTable 1024 (longRow n indirect)

/-- A kernel with no memory for indirect blocks. -/
def uncached : Ext2 := { rooted (longDisk 13 21) with alloc := fun _ => false }

/-- The lookups on these images, and what the paths designate. -/
theorem runs_images :
    (Runs far farDisk [slash, 97] 0 .address (0, 0) ∧
      far.resolve farDisk far.rootInode (components [slash, 97]) = some 12) ∧
    (Runs (rooted unusedDisk) unusedDisk [slash, 97] 0 .live (0, 0) ∧
      (rooted unusedDisk).resolve unusedDisk (rooted unusedDisk).rootInode (components [slash, 97]) = some 12) ∧
    (Runs deep deepDisk [slash, 100, slash, 97] 0 .offset (errNoEntry, 513) ∧
      deep.resolve deepDisk deep.rootInode (components [slash, 100, slash, 97]) = some 12) ∧
    (Runs (rooted danglingDisk) danglingDisk [slash, 98] 13 .stale (errNoEntry, 13) ∧
      components [slash, 98] = [[98]] ∧ (rooted danglingDisk).rootInode.size = 1024 ∧
      lookupEntry danglingDisk (rooted danglingDisk).blockSize (rooted danglingDisk).rootInode [98] = none) ∧
    (Runs (rooted (longDisk 13 65536)) (longDisk 13 65536) [slash, 97] 0 .narrow (0, 0) ∧
      (rooted (longDisk 13 65536)).resolve (longDisk 13 65536) (rooted (longDisk 13 65536)).rootInode
        (components [slash, 97]) = some 12) ∧
    (Runs uncached (longDisk 13 21) [slash, 97] 0 .cache (0, 0) ∧
      uncached.resolve (longDisk 13 21) uncached.rootInode (components [slash, 97]) = some 12) := by
  decide +kernel

theorem needed_address : Needed .address := by
  obtain ⟨⟨hruns, hres⟩, -⟩ := runs_images
  exact hruns.needed rfl delivers_far (lookable_slash_cons (by decide)) hres (Or.inr (by decide))

theorem needed_live : Needed .live := by
  obtain ⟨-, ⟨hruns, hres⟩, -⟩ := runs_images
  exact hruns.needed rfl (delivers_rooted _) (lookable_slash_cons (by decide)) hres (Or.inr (by decide))

theorem needed_offset : Needed .offset := by
  obtain ⟨-, -, ⟨hruns, hres⟩, -⟩ := runs_images
  have hdelivers := delivers_rooted deepDisk
  exact hruns.needed rfl ⟨hdelivers.result, hdelivers.bytes⟩ ⟨by decide, 97, by decide, rfl⟩ hres (Or.inl (by decide))

/-- The walk goes on with the link, which leads to the name that is missing: so it fails, as it should. -/
theorem needed_stale : Needed .stale := by
  obtain ⟨-, -, -, ⟨hruns, hnames, hsize, hname⟩, -⟩ := runs_images
  have hsmall : (rooted danglingDisk).rootInode.size ≤ 1024 * (rooted danglingDisk).blockSize := by
    rw [hsize]
    decide
  exact hruns.needed_of_missing rfl (delivers_rooted _) (lookable_slash_cons (by decide)) hnames hname hsmall
    (by decide)

theorem needed_narrow : Needed .narrow := by
  obtain ⟨-, -, -, -, ⟨hruns, hres⟩, -⟩ := runs_images
  exact hruns.needed rfl (delivers_rooted _) (lookable_slash_cons (by decide)) hres (Or.inr (by decide))

theorem needed_cache : Needed .cache := by
  obtain ⟨-, -, -, -, -, hruns, hres⟩ := runs_images
  have hdelivers := delivers_rooted (longDisk 13 21)
  exact hruns.needed rfl ⟨hdelivers.result, hdelivers.bytes⟩ (lookable_slash_cons (by decide)) hres (Or.inr (by decide))

/-! ## A directory whose name is out of reach -/

/-- The block with the given words. -/
def rowBlock (row : ℕ → ℕ) : List UInt8 :=
  (List.range 1024).map fun i => UInt8.ofNat (row (i / 4) / 2 ^ (8 * (i % 4)))

theorem diskBlock_ofTable (table : ℕ → ℕ → ℕ) (b : ℕ) :
    Ext2.diskBlock (ofTable 1024 table) 1024 b = rowBlock (table b) := by
  refine List.map_congr_left fun i hi => ?_
  have hlt : i < 1024 := List.mem_range.mp hi
  rw [ofTable, show (b * 1024 + i) / 1024 = b by omega, show (b * 1024 + i) % 1024 = i by omega,
    show (b * 1024 + i) % 4 = i % 4 by omega]

/-- A root directory of 1026 blocks. -/
def wideDisk : ℕ → UInt8 := longDisk 1026 21

/-- Its records: no name, apart from the first and the last block. -/
def wideRow (k : ℕ) : ℕ → ℕ :=
  if k = 0 then fun j => [2, 0x201000C, 46, 2, 0x20203F4, 0x2E2E].getD j 0
  else if k = 1025 then recordRow 12 97
  else recordRow 0 0

theorem longRow_wide {k : ℕ} (hk : k < 1026) : longRow 1026 21 (100 + k) = wideRow k := by
  funext j
  rw [longRow, if_neg (by omega), if_neg (by omega), if_neg (by omega), if_neg (by omega), wideRow]
  split_ifs
  all_goals first | rfl | omega

/-- The inodes of the directory and of the file. -/
theorem inodes_wide :
    (rooted wideDisk).rootInode =
        ⟨0x41ED, 1026 * 1024, [100, 101, 102, 103, 104, 105, 106, 107, 108, 109, 110, 111, 21, 22, 0]⟩ ∧
      (rooted wideDisk).diskInode wideDisk 12 = ⟨0x81A4, 0, List.replicate 15 0⟩ := by
  decide

theorem blockSize_rooted (disk : ℕ → UInt8) : (rooted disk).blockSize = 1024 := rfl

theorem scannedBlocks_wide : (rooted wideDisk).scannedBlocks (rooted wideDisk).rootInode = 1025 := by
  rw [Ext2.scannedBlocks, inodes_wide.1, blockSize_rooted]
  norm_num

theorem block_wide (i : ℕ) (hi : i < 14) : (rooted wideDisk).rootInode.block.getD i 0 =
    if i < 12 then 100 + i else if i = 12 then 21 else 22 := by
  rw [inodes_wide.1]
  interval_cases i <;> rfl

theorem pointer_wide {b j : ℕ} (hb : b = 21 ∨ b = 22 ∨ 30 ≤ b ∧ b < 33) (hj : j < 256) :
    pointer wideDisk 1024 b j = longRow 1026 21 b j := by
  have hlt : longRow 1026 21 b j < 2 ^ 32 := by
    rw [longRow, if_neg (by omega)]
    split_ifs
    all_goals omega
  rw [wideDisk, longDisk, pointer_ofTable _ (by norm_num) hj hlt, if_neg (by omega)]

/-- The pointers to the blocks of the directory: those of the inode, of the block 21, and of the blocks 30, 31
and 32. -/
theorem designated_wide {k : ℕ} (hk : k < 1026) :
    designated wideDisk 1024 (rooted wideDisk).rootInode k = 100 + k ∧
      (rooted wideDisk).rootInode.Narrow wideDisk 1024 k := by
  rw [designated, Inode.Narrow, show 1024 / 4 = 256 by norm_num, pointerPath]
  -- a direct block, one behind the block 21, or one behind the block 22 and one of the blocks 30 to 32
  split_ifs with h₁ h₂ h₃
  · refine ⟨?_, trivial⟩
    show (rooted wideDisk).rootInode.block.getD k 0 = 100 + k
    rw [block_wide k (by omega), if_pos h₁]
  · have hfirst := block_wide 12 (by norm_num)
    rw [if_neg (by norm_num), if_pos rfl] at hfirst
    simp only [List.headD_cons, List.tail_cons, follow, List.foldl_cons, List.foldl_nil, Narrow, and_true, hfirst]
    rw [pointer_wide (Or.inl rfl) (by omega)]
    exact ⟨by simp [longRow]; omega, by norm_num⟩
  · have hfirst := block_wide 13 (by norm_num)
    rw [if_neg (by norm_num), if_neg (by norm_num)] at hfirst
    have hsecond : pointer wideDisk 1024 22 ((k - 12 - 256) / 256) = 30 + (k - 12 - 256) / 256 := by
      rw [pointer_wide (Or.inr (Or.inl rfl)) (by omega)]
      simp [longRow]
    simp only [List.headD_cons, List.tail_cons, follow, List.foldl_cons, List.foldl_nil, Narrow, and_true, hfirst,
      hsecond]
    rw [pointer_wide (Or.inr (Or.inr (by omega))) (by omega), longRow, if_neg (by omega), if_neg (by omega),
      if_neg (by omega), if_pos (by omega)]
    exact ⟨by omega, by norm_num, by omega⟩
  · omega

theorem dirBlock_wide {k : ℕ} (hk : k < 1026) :
    dirBlock wideDisk 1024 (rooted wideDisk).rootInode k = rowBlock (wideRow k) := by
  rw [dirBlock, (designated_wide hk).1, wideDisk, longDisk, diskBlock_ofTable, longRow_wide hk]

/-- The records of a block. -/
def wideEntries (k : ℕ) : List Entry :=
  if k = 0 then [⟨2, [period]⟩, ⟨2, [period, period]⟩] else if k = 1025 then [⟨12, [97]⟩] else [⟨0, []⟩]

theorem row_wide (k : ℕ) : parseRecords 1024 (rowBlock (wideRow k)) 1024 0 = wideEntries k ∧
    WellFormed 1024 (rowBlock (wideRow k)) 1024 0 := by
  rw [wideRow, wideEntries]
  split_ifs
  · decide +kernel
  · decide +kernel
  · decide +kernel

theorem records_wide {n : ℕ} (hn : n ≤ 1026) :
    Ext2.records 1024 (dirBlock wideDisk 1024 (rooted wideDisk).rootInode) 0 n =
      (List.range n).flatMap wideEntries := by
  rw [Ext2.records, ← List.range_eq_range']
  refine List.flatMap_congr fun k hk => ?_
  have hlt : k < n := List.mem_range.mp hk
  rw [dirBlock_wide (by omega), (row_wide k).1]

/-- The file is not in the blocks that a lookup goes through. -/
theorem find_wide : (((List.range 1025).flatMap wideEntries).find? fun e => e.name = [97]) = none := by
  refine List.find?_eq_none.mpr fun e he => ?_
  obtain ⟨k, hk, he⟩ := List.mem_flatMap.mp he
  have hlt : k < 1025 := List.mem_range.mp hk
  rw [wideEntries, if_neg (show k ≠ 1025 by omega)] at he
  split_ifs at he
  · rcases List.mem_pair.mp he with rfl | rfl
    · decide
    · decide
  · obtain rfl := List.mem_singleton.mp he
    decide

theorem firstEntry_wide : (rooted wideDisk).firstEntry wideDisk (rooted wideDisk).rootInode [97] = none := by
  rw [Ext2.firstEntry, scannedBlocks_wide, blockSize_rooted, records_wide (by norm_num), find_wide]

theorem lookup_wide : lookupEntry wideDisk (rooted wideDisk).blockSize (rooted wideDisk).rootInode [97] = some 12 := by
  have hblocks : (rooted wideDisk).rootInode.size / 1024 = 1026 := by
    rw [inodes_wide.1]
    norm_num
  have hentries : dirEntries wideDisk 1024 (rooted wideDisk).rootInode = (List.range 1026).flatMap wideEntries := by
    rw [← records_wide le_rfl, Ext2.records, ← List.range_eq_range', dirEntries, hblocks]
  -- the entry of the last block is the first one with the name, unused ones left out
  have hunused : (((List.range 1025).flatMap wideEntries).find? fun e => e.name = [97] ∧ e.inode ≠ 0) = none := by
    refine List.find?_eq_none.mpr fun e he => ?_
    have := List.find?_eq_none.mp find_wide e he
    simp only [decide_eq_true_eq] at this ⊢
    exact fun h => this h.1
  rw [blockSize_rooted, lookupEntry, hentries, List.range_succ, List.flatMap_append,
    List.find?_append, hunused, Option.none_or]
  rfl

theorem soundDir_wide : (rooted wideDisk).SoundDir wideDisk (rooted wideDisk).rootInode := by
  have hsize : (rooted wideDisk).rootInode.size = 1026 * 1024 := by rw [inodes_wide.1]
  have hblocks : (rooted wideDisk).rootInode.size / (rooted wideDisk).blockSize = 1026 := by
    rw [hsize, blockSize_rooted]
  refine ⟨?_, ?_, ?_, fun k hk => ?_, fun k hk => ?_⟩
  · rw [hsize]
    norm_num
  · rw [hsize]
    norm_num
  · rw [hsize, blockSize_rooted]
  · rw [hblocks] at hk
    rw [blockSize_rooted, (designated_wide hk).1]
    omega
  · rw [hblocks] at hk
    rw [blockSize_rooted, dirBlock_wide hk]
    exact (row_wide k).2

theorem scansDir_wide : (rooted wideDisk).ScansDir wideDisk (rooted wideDisk).rootInode [97] := by
  have hlt : ∀ k, (rooted wideDisk).Searches wideDisk (rooted wideDisk).rootInode [97] k → k < 1026 := by
    intro k hk
    have := hk.1
    rw [scannedBlocks_wide] at this
    omega
  refine ⟨?_, fun k hk => (designated_wide (hlt k hk)).2, fun k _ => ?_, fun k hk => ?_⟩
  · rw [inodes_wide.1]
    norm_num
  · exact (serves_rooted wideDisk).inode_cached _ _ _
  · rw [blockSize_rooted, (designated_wide (hlt k hk)).1]
    have := hlt k hk
    omega

theorem turns_wide : (rooted wideDisk).turns wideDisk (rooted wideDisk).rootInode 0 false [[97]] =
    [⟨(rooted wideDisk).rootInode, [97], some 12, false⟩] := by
  have hdir : ¬ ((rooted wideDisk).diskInode wideDisk 12).IsDir := by
    rw [inodes_wide.2]
    decide
  rw [Ext2.turns, Ext2.nextInum_of_lookup lookup_wide, lookup_wide]
  simp only [if_neg hdir]
  rfl

/-- The lookup in the root directory gives up. -/
theorem dirLookup_wide : (rooted wideDisk).ext2DirLookup (rooted wideDisk).rootInode [97] = some (-1, none) := by
  have hdir : (rooted wideDisk).rootInode.IsDir := by
    rw [inodes_wide.1]
    decide
  rw [soundDir_wide.dirLookup scansDir_wide hdir (delivers_rooted _) (by decide), firstEntry_wide]
  -- the directory does not end within the blocks that the lookup goes through
  refine congrArg some (if_neg ?_)
  rw [inodes_wide.1, blockSize_rooted]
  norm_num

theorem runs_wide : Runs (rooted wideDisk) wideDisk [slash, 97] 0 .reach (-1, 0) := by
  have hnames : components [slash, 97] = [[97]] := by decide
  -- The disk is too large to run the walk on: its only turn is known from the lemmas above.
  refine ⟨rfl, ?_, ?_, fun other hother => ?_, ?_⟩
  · rw [inodes_wide.1]
    decide
  · rw [hnames, turns_wide]
    refine List.forall_mem_singleton.mpr ⟨soundDir_wide, fun _ num hnum => ?_⟩
    obtain rfl := Option.some.inj hnum
    refine ⟨by norm_num, by norm_num, ?_⟩
    rw [inodes_wide.2]
    decide
  · rw [Ext2.Within, hnames, turns_wide]
    refine List.forall_mem_singleton.mpr ?_
    cases other with
    | reach => exact absurd rfl hother
    | narrow => exact scansDir_wide.narrow
    | cache => exact scansDir_wide.cached
    | address => exact ⟨scansDir_wide.fits, by decide⟩
    | live =>
      show ∀ e ∈ (rooted wideDisk).firstEntry wideDisk (rooted wideDisk).rootInode [97], e.inode ≠ 0
      rw [firstEntry_wide]
      simp
    | offset => exact fun num hnum => Option.some.inj hnum ▸ by decide
    | stale => exact fun h => absurd h (by decide)
  · rw [Ext2.ext2Lookup_eq, Ext2.ext2Walk_eq, if_neg (by norm_num),
      show (strlcpy [slash, 97] 512).dropWhile (· = slash) = [97] by decide, Ext2.walk_turn,
      show ([97] : List Char8).takeWhile (· ≠ slash) = [97] by decide, dirLookup_wide]
    rfl

theorem needed_reach : Needed .reach := by
  have hres : (rooted wideDisk).resolve wideDisk (rooted wideDisk).rootInode (components [slash, 97]) = some 12 := by
    rw [show components [slash, 97] = [[97]] by decide, Ext2.resolve, if_pos runs_wide.root, lookup_wide]
    rfl
  exact runs_wide.needed rfl (delivers_rooted _) (lookable_slash_cons (by decide)) hres (Or.inl (by decide))

/-! ## The limits, and the condition within them -/

theorem needed (limit : Ext2.Limit) : Needed limit := by
  cases limit with
  | reach => exact needed_reach
  | narrow => exact needed_narrow
  | cache => exact needed_cache
  | address => exact needed_address
  | live => exact needed_live
  | offset => exact needed_offset
  | stale => exact needed_stale

/-- **Lookups, exactly.** Within the limits, `ext2_lookup` finds the inode that the path designates and fails if there
is none, if and only if there is memory for its buffer, and no component is looked up in a directory that does not
have it, or the walk, that goes on with the inode number it had before, stops at something that is not a directory.
Without any of the limits this is wrong. -/
theorem ext2_lookup_exact_iff {fs : Ext2} {disk : ℕ → UInt8} {path : List Char8} {inum : ℕ}
    (himage : fs.Image disk path inum) {β : Type} (sbrk : Libc.Sbrk β) (heap : Libc.Data β) :
    ((∀ limit, fs.Within disk path inum limit) →
      (fs.Exact disk sbrk heap path inum ↔ Libc.Obtains sbrk heap fs.bufferSize ∧
        (¬ fs.Missing disk fs.rootInode (components path) ∨
          fs.Stops disk fs.rootInode inum (components path)))) ∧
    ∀ limit, Needed limit :=
  ⟨fun hwithin => himage.exact_iff hwithin sbrk heap, needed⟩

/-- A root directory with the file `a`. -/
def oneFileDisk : ℕ → UInt8 := diskOf (rootAt 10 ++ dirWith 10240 [12, 0, 0, 0, 0xE8, 3, 1, 1, 97])

/-- The walk is within all limits, for a name that is there and for one that is not. -/
theorem within_oneFile : (rooted oneFileDisk).rootInode.IsDir ∧ ∀ c ∈ ([97, 98] : List Char8),
    (∀ t ∈ (rooted oneFileDisk).turns oneFileDisk (rooted oneFileDisk).rootInode 12 false (components [slash, c]),
      (rooted oneFileDisk).SoundDir oneFileDisk t.dir ∧
        (t.astray = false → ∀ num ∈ t.next, (rooted oneFileDisk).NoLink oneFileDisk num)) ∧
      ∀ limit, (rooted oneFileDisk).Within oneFileDisk [slash, c] 12 limit := by
  decide +kernel

theorem image_oneFile {c : Char8} (hc : c ∈ ([97, 98] : List Char8)) (hslash : c ≠ slash) :
    (rooted oneFileDisk).Image oneFileDisk [slash, c] 12 :=
  ⟨delivers_rooted _, by decide, within_oneFile.1, lookable_slash_cons hslash, (within_oneFile.2 c hc).1⟩

/-- The file is there, and is found. -/
theorem ext2_lookup_exact_oneFile :
    (rooted oneFileDisk).resolve oneFileDisk (rooted oneFileDisk).rootInode (components [slash, 97]) = some 12 ∧
      (rooted oneFileDisk).Exact oneFileDisk (Libc.contiguousSbrk true) bootHeap [slash, 97] 12 := by
  have hres : (rooted oneFileDisk).resolve oneFileDisk (rooted oneFileDisk).rootInode (components [slash, 97]) =
      some 12 := by decide +kernel
  have himage : (rooted oneFileDisk).Image oneFileDisk [slash, 97] 12 := image_oneFile (by decide) (by decide)
  have hwithin := (within_oneFile.2 97 (by decide)).2
  refine ⟨hres, ?_⟩
  rw [(ext2_lookup_exact_iff himage _ _).1 hwithin]
  exact ⟨obtains_bootHeap, Or.inl (Ext2.not_missing_of_resolve _ hres)⟩

/-- There is no file `b`, but its lookup returns 0, with the inode number that it was given. -/
theorem not_exact_missing :
    (rooted oneFileDisk).Image oneFileDisk [slash, 98] 12 ∧
      (∀ limit, (rooted oneFileDisk).Within oneFileDisk [slash, 98] 12 limit) ∧
      Libc.Obtains (Libc.contiguousSbrk true) bootHeap (rooted oneFileDisk).bufferSize ∧
      (rooted oneFileDisk).resolve oneFileDisk (rooted oneFileDisk).rootInode (components [slash, 98]) = none ∧
      (rooted oneFileDisk).ext2LookupOn (Libc.contiguousSbrk true) bootHeap [slash, 98] 12 = some (0, 12) ∧
      ¬ (rooted oneFileDisk).Exact oneFileDisk (Libc.contiguousSbrk true) bootHeap [slash, 98] 12 := by
  have hbuf : Libc.Obtains (Libc.contiguousSbrk true) bootHeap (rooted oneFileDisk).bufferSize := obtains_bootHeap
  have h : (rooted oneFileDisk).resolve oneFileDisk (rooted oneFileDisk).rootInode (components [slash, 98]) = none ∧
      (rooted oneFileDisk).ext2Lookup [slash, 98] 12 = some (0, 12) := by decide +kernel
  -- the root directory is searched to its end, and the walk ends with the number it was given
  have hlookup := h.2
  rw [← Ext2.ext2LookupOn_of_obtains hbuf] at hlookup
  refine ⟨image_oneFile (by decide) (by decide), (within_oneFile.2 98 (by decide)).2, hbuf, h.1, hlookup, ?_⟩
  rw [Ext2.Exact, h.1, hlookup]
  rintro ⟨err, inum, hneg, heq⟩
  cases heq
  exact absurd hneg (by decide)

end I80k.Kernel

import I80k.Kernel.Ext2.Io

/-!
# The physical block of a byte

On the disk an inode designates the block of each logical block number: the first twelve directly, the
others through one, two or three levels of indirect blocks. The driver follows the same pointers, but
through variables of 16 bits: a logical block number loses its high bits in `ext2_read_inode`, and the
number of an indirect block in `ext2_get_indirect_block_pointer_cache_block`.

## Main definitions

* `Ext2.Serves`: the device reads of a file system succeed, on a given disk
* `pointerPath`, `pointer`, `designated`: what the pointers on the disk designate
* `Narrow`: the indirect blocks on a path have numbers of 16 bits
* `Consistent`: the pointers of an inode are below the number of blocks
* `Ext2.Maps`: a read that covers an offset takes its byte from the designated block

## Main results

* `Ext2.uses_readInode`: which logical block a read uses for each byte
* `Ext2.fileBlockToFsBlock_eq`: the walk is right where nothing is truncated
* `ext2_maps_block`: and only there
-/

namespace I80k.Kernel

/-- Device reads of up to one block below 2 GiB succeed and give the bytes of `disk`. -/
structure Ext2.Delivers (fs : Ext2) (disk : ℕ → UInt8) : Prop where
  result : ∀ offset len, len ≤ 4096 → offset + len ≤ 2 ^ 31 → 0 ≤ (fs.blkRead offset len).1
  bytes : ∀ offset len, len ≤ 4096 → offset + len ≤ 2 ^ 31 →
    (fs.blkRead offset len).2 = (List.range len).map fun i => disk (offset + i)

/-- Device reads of up to one block below 2 GiB succeed and give the bytes of `disk`, and there is
memory for the copies of blocks. -/
structure Ext2.Serves (fs : Ext2) (disk : ℕ → UInt8) : Prop where
  result : ∀ offset len, len ≤ 4096 → offset + len ≤ 2 ^ 31 → 0 ≤ (fs.blkRead offset len).1
  bytes : ∀ offset len, len ≤ 4096 → offset + len ≤ 2 ^ 31 →
    (fs.blkRead offset len).2 = (List.range len).map fun i => disk (offset + i)
  alloc : ∀ bnum, fs.alloc bnum = true

/-! ## What the disk says -/

section Disk

variable (disk : ℕ → UInt8) (bs : ℕ)

/-- The 32-bit number at an address of the disk. -/
def diskLe32 (a : ℕ) : ℕ :=
  (disk a).toNat + 2 ^ 8 * (disk (a + 1)).toNat +
    2 ^ 16 * ((disk (a + 2)).toNat + 2 ^ 8 * (disk (a + 3)).toNat)

/-- The pointer at position `j` of the indirect block `b`; a missing block has none. -/
def pointer (b j : ℕ) : ℕ := if b = 0 then 0 else diskLe32 disk (b * bs + 4 * j)

/-- The positions of logical block `n` among the pointers, `p` to a block. -/
def pointerPath (p n : ℕ) : List ℕ :=
  if n < 12 then [n]
  else if n < 12 + p then [12, n - 12]
  else if n < 12 + p + p * p then [13, (n - 12 - p) / p, (n - 12 - p) % p]
  else
    [14, (n - 12 - p - p * p) / (p * p), (n - 12 - p - p * p) / p % p, (n - 12 - p - p * p) % p]

/-- Follows pointers from block `b` on. -/
def follow (b : ℕ) (path : List ℕ) : ℕ := path.foldl (pointer disk bs) b

/-- The block that the pointers of the inode designate for logical block `n`; 0 is a hole. -/
def designated (inode : Inode) (n : ℕ) : ℕ :=
  let path := pointerPath (bs / 4) n
  follow disk bs (inode.block.getD (path.headD 0) 0) path.tail

/-- Every block that a path goes through, the last one apart, has a number of 16 bits. -/
def Narrow : ℕ → List ℕ → Prop
  | _, [] => True
  | b, j :: path => b < 2 ^ 16 ∧ Narrow (pointer disk bs b j) path

/-- The indirect blocks of logical block `n` have numbers of 16 bits. -/
def Inode.Narrow (inode : Inode) (n : ℕ) : Prop :=
  let path := pointerPath (bs / 4) n
  Kernel.Narrow disk bs (inode.block.getD (path.headD 0) 0) path.tail

/-- There is memory for a copy of every block that a path goes through, the last one apart. -/
def Ext2.Cached (fs : Ext2) : ℕ → List ℕ → Prop
  | _, [] => True
  | b, j :: path => fs.alloc b = true ∧ Cached fs (pointer disk bs b j) path

/-- There is memory for copies of the indirect blocks of logical block `n`. -/
def Inode.Cached (inode : Inode) (fs : Ext2) (n : ℕ) : Prop :=
  let path := pointerPath (bs / 4) n
  fs.Cached disk bs (inode.block.getD (path.headD 0) 0) path.tail

instance decidableNarrow : ∀ b path, Decidable (Narrow disk bs b path)
  | _, [] => inferInstanceAs (Decidable True)
  | b, j :: path =>
    have := decidableNarrow (pointer disk bs b j) path
    inferInstanceAs (Decidable (_ ∧ _))

instance decidableCached (fs : Ext2) : ∀ b path, Decidable (fs.Cached disk bs b path)
  | _, [] => inferInstanceAs (Decidable True)
  | b, j :: path =>
    have := decidableCached fs (pointer disk bs b j) path
    inferInstanceAs (Decidable (_ ∧ _))

instance (inode : Inode) (n : ℕ) : Decidable (inode.Narrow disk bs n) :=
  inferInstanceAs (Decidable (Kernel.Narrow ..))

instance (inode : Inode) (fs : Ext2) (n : ℕ) : Decidable (inode.Cached disk bs fs n) :=
  inferInstanceAs (Decidable (Ext2.Cached ..))

/-- Block `b`, and what is below it through `depth` levels of pointers, is among the `count` blocks. -/
def Within (count : ℕ) : ℕ → ℕ → Prop
  | 0, b => b < count
  | depth + 1, b => b < count ∧ ∀ j < bs / 4, Within count depth (pointer disk bs b j)

/-- The pointers of the inode are below the number of blocks. -/
structure Consistent (count : ℕ) (inode : Inode) : Prop where
  length : inode.block.length = 15
  direct : ∀ i < 12, inode.block.getD i 0 < count
  indirect : ∀ level, 1 ≤ level → level ≤ 3 → Within disk bs count level (inode.block.getD (11 + level) 0)

end Disk

/-- Every read of the inode that covers the byte at `offset` takes it from the block that the disk
designates. -/
def Ext2.Maps (fs : Ext2) (disk : ℕ → UInt8) (inode : Inode) (offset : ℕ) : Prop :=
  ∀ start len, ∀ use ∈ (fs.ext2ReadInode inode start len).2.uses,
    use.offset ≤ offset → offset < use.offset + use.length →
      use.block = designated disk fs.blockSize inode (offset / fs.blockSize)

namespace Ext2

variable {fs : Ext2} {disk : ℕ → UInt8} {inode : Inode}

/-! ## The logical blocks that a read uses -/

theorem toUint_toUint_add (a b : ℕ) : toUint (toUint a + b) = toUint (a + b) := by
  simp [toUint, Nat.add_mod]

/-- A use takes its bytes from one block, and from the one whose number was cut to 16 bits. -/
def Use.Of (fs : Ext2) (inode : Inode) (use : Use) : Prop :=
  use.block = fs.fileBlockToFsBlock inode (toUint (use.offset / fs.blockSize)) ∧
    ∀ offset, use.offset ≤ offset → offset < use.offset + use.length →
      offset / fs.blockSize = use.offset / fs.blockSize

theorem use_copyOut {fileBlock offset start length : ℕ}
    (hblock : fileBlock = toUint (offset / fs.blockSize))
    (hlen : offset % fs.blockSize + length ≤ fs.blockSize) :
    ∀ use ∈ (fs.copyOut inode fileBlock offset start length).uses, use.Of fs inode := by
  intro use huse
  obtain rfl : use = ⟨offset, length, fs.fileBlockToFsBlock inode fileBlock⟩ := by
    simpa [copyOut] using huse
  refine ⟨by rw [hblock], fun o ho ho' => ?_⟩
  dsimp only at ho ho' ⊢
  have hdiv := Nat.div_add_mod offset fs.blockSize
  refine Nat.div_eq_of_lt_le ?_ ?_
  · rw [mul_comm]
    omega
  · rw [mul_comm, Nat.mul_add, Nat.mul_one]
    omega

theorem uses_readBlocks (fuel : ℕ) :
    ∀ {fileBlock offset len : ℕ}, fileBlock = toUint (offset / fs.blockSize) →
      offset % fs.blockSize = 0 → 0 < fs.blockSize →
      ∀ use ∈ (fs.readBlocks inode fuel fileBlock offset len).uses, use.Of fs inode := by
  induction fuel with
  | zero =>
    intro fileBlock offset len _ _ _ use huse
    simp [readBlocks] at huse
  | succ fuel ih =>
    intro fileBlock offset len hblock hmod hpos use huse
    rw [readBlocks] at huse
    split_ifs at huse with hle hlt
    · rcases List.mem_append.mp huse with huse | huse
      · exact use_copyOut hblock (by omega) use huse
      · refine ih ?_ ?_ hpos use huse
        · rw [hblock, toUint_toUint_add, Nat.add_div_right _ hpos]
        · rw [Nat.add_mod_right, hmod]
    · exact use_copyOut hblock (by omega) use huse
    · simp at huse

/-- **The blocks that a read uses**: for each byte, the logical block that the offset is in, with its
number cut to 16 bits. -/
theorem uses_readInode (hpos : 0 < fs.blockSize) (start len : ℕ) :
    ∀ use ∈ (fs.ext2ReadInode inode start len).2.uses, use.Of fs inode := by
  intro use huse
  simp only [ext2ReadInode] at huse
  split_ifs at huse with h₀ hpart
  · simp at huse
  · have hlt := Nat.mod_lt start hpos
    have hdiv := Nat.div_add_mod start fs.blockSize
    rcases List.mem_append.mp huse with huse | huse
    · refine use_copyOut rfl ?_ use huse
      omega
    · -- Either the first block is read to its end, or the read ends in it.
      rcases le_total (fs.blockSize - start % fs.blockSize) (fs.trimLen inode start len) with hle | hle
      · rw [min_eq_right hle] at huse
        have hnext : start + (fs.blockSize - start % fs.blockSize) =
            fs.blockSize * (start / fs.blockSize + 1) := by
          rw [Nat.mul_add, Nat.mul_one]
          omega
        refine uses_readBlocks _ ?_ ?_ hpos use huse
        · rw [toUint_toUint_add, hnext, Nat.mul_div_cancel_left _ hpos]
        · rw [hnext, Nat.mul_mod_right]
      · rw [min_eq_left hle, Nat.sub_self] at huse
        simp only [readBlocks, if_neg (not_le.mpr hpos), lt_irrefl, if_false] at huse
        simp at huse
  · exact uses_readBlocks _ rfl (not_not.mp hpart) hpos use huse

/-! ## The walk, where nothing is truncated -/

/-- The block sizes of ext2. -/
theorem blockSize_of_le (h : fs.logBlockSize ≤ 2) :
    fs.blockSize = 1024 * 2 ^ fs.logBlockSize ∧ 1024 ≤ fs.blockSize ∧ fs.blockSize ≤ 4096 ∧
      fs.addrPerBlock * 4 = fs.blockSize := by
  have hcases : fs.logBlockSize = 0 ∨ fs.logBlockSize = 1 ∨ fs.logBlockSize = 2 := by omega
  rcases hcases with h | h | h
  · simp [addrPerBlock, blockSize, toUint32, h]
  · simp [addrPerBlock, blockSize, toUint32, h]
  · simp [addrPerBlock, blockSize, toUint32, h]

/-- The bytes of a block. -/
def diskBlock (disk : ℕ → UInt8) (bs b : ℕ) : List UInt8 :=
  (List.range bs).map fun i => disk (b * bs + i)

theorem getD_diskBlock {bs b i : ℕ} (h : i < bs) :
    (diskBlock disk bs b).getD i 0 = disk (b * bs + i) := by
  simp [diskBlock, List.getD_eq_getElem?_getD, h]

theorem le32_diskBlock {bs b j : ℕ} (h : j < bs / 4) :
    le32 (diskBlock disk bs b) (4 * j) = diskLe32 disk (b * bs + 4 * j) := by
  have hj : 4 * j + 3 < bs := by omega
  simp only [le32, le16, diskLe32]
  rw [getD_diskBlock (by omega), getD_diskBlock (by omega), getD_diskBlock (by omega),
    getD_diskBlock (by omega)]
  simp only [Nat.add_assoc]

theorem Serves.delivers (h : fs.Serves disk) : fs.Delivers disk := ⟨h.result, h.bytes⟩

theorem Serves.cached (h : fs.Serves disk) (bs : ℕ) (path : List ℕ) : ∀ b, fs.Cached disk bs b path := by
  induction path with
  | nil => exact fun _ => trivial
  | cons j path ih => exact fun b => ⟨h.alloc b, ih _⟩

theorem Serves.inode_cached (h : fs.Serves disk) (bs : ℕ) (inode : Inode) (n : ℕ) : inode.Cached disk bs fs n :=
  h.cached bs _ _

theorem Delivers.readBlock (h : fs.Delivers disk) (hbs : fs.blockSize ≤ 4096) {b : ℕ}
    (hb : b * fs.blockSize + fs.blockSize ≤ 2 ^ 31) :
    0 ≤ (fs.ext2ReadBlock b).1 ∧ (fs.ext2ReadBlock b).2 = diskBlock disk fs.blockSize b := by
  have hoff : toUint32 (b * fs.blockSize) = b * fs.blockSize := Nat.mod_eq_of_lt (by omega)
  rw [ext2ReadBlock, hoff]
  exact ⟨h.result _ _ hbs hb, h.bytes _ _ hbs hb⟩

theorem Delivers.getBlock (h : fs.Delivers disk) (hbs : fs.blockSize ≤ 4096) {b : ℕ} (halloc : fs.alloc b = true)
    (hb : b * fs.blockSize + fs.blockSize ≤ 2 ^ 31) :
    fs.ext2GetBlock b = .ok (diskBlock disk fs.blockSize b) := by
  obtain ⟨hres, hbytes⟩ := h.readBlock hbs hb
  have hneg : ¬ (fs.ext2ReadBlock b).1 < 0 := Int16.not_lt.mpr hres
  simp only [ext2GetBlock, halloc]
  rw [if_neg (by simp), if_neg hneg, hbytes]

/-- A block whose number has 16 bits is in the first half of what an `off_t` can address. -/
theorem block_le_of_lt {b bs : ℕ} (hb : b < 2 ^ 16) (hbs : bs ≤ 4096) : b * bs + bs ≤ 2 ^ 31 := by
  calc b * bs + bs = (b + 1) * bs := (Nat.succ_mul b bs).symm
    _ ≤ 2 ^ 16 * 4096 := Nat.mul_le_mul hb hbs
    _ ≤ 2 ^ 31 := by norm_num

/-- Digging down through numbers of 16 bits follows the pointers of the disk. -/
theorem Delivers.digDown (h : fs.Delivers disk) (hbs : fs.blockSize ≤ 4096) {last : ℕ}
    (hlast : last < fs.blockSize / 4) (between : List ℕ) (hpos : ∀ j ∈ between, j < fs.blockSize / 4) :
    ∀ {b : ℕ}, Narrow disk fs.blockSize b (between ++ [last]) →
      fs.Cached disk fs.blockSize b (between ++ [last]) →
      tableEntry (fs.digDown b between) last = follow disk fs.blockSize b (between ++ [last]) := by
  induction between with
  | nil =>
    intro b hb hcached
    rw [Ext2.digDown]
    split_ifs with h₀
    · simp [tableEntry, follow, pointer, h₀]
    · have hle := block_le_of_lt (show b < 2 ^ 16 from hb.1) hbs
      rw [h.getBlock hbs hcached.1 hle]
      simp [tableEntry, follow, pointer, h₀, le32_diskBlock hlast]
  | cons j between ih =>
    intro b hb hcached
    rw [Ext2.digDown]
    split_ifs with h₀
    · -- A missing block: the walk stops, and every pointer from there on is missing too.
      have hzero : ∀ path : List ℕ, path.foldl (pointer disk fs.blockSize) 0 = 0 := by
        intro path
        induction path with
        | nil => rfl
        | cons j path ih => simpa [pointer] using ih
      simp [tableEntry, follow, h₀, hzero]
    · have hle := block_le_of_lt (show b < 2 ^ 16 from hb.1) hbs
      have hj : j < fs.blockSize / 4 := hpos j List.mem_cons_self
      have hentry : le32 (diskBlock disk fs.blockSize b) (4 * j) = pointer disk fs.blockSize b j := by
        rw [le32_diskBlock hj, pointer, if_neg h₀]
      have hnext : toUint (pointer disk fs.blockSize b j) = pointer disk fs.blockSize b j := by
        refine Nat.mod_eq_of_lt ?_
        cases between with
        | nil => exact hb.2.1
        | cons j' between => exact hb.2.1
      rw [h.getBlock hbs hcached.1 hle]
      have hrec := ih (fun j' hj' => hpos j' (List.mem_cons_of_mem _ hj')) hb.2 hcached.2
      simpa [hentry, hnext, follow, Except.bind, bind] using hrec

/-- A logical block of less than 24 bits is in reach of three levels of pointers. -/
theorem lt_reach {p n : ℕ} (hp : 256 ≤ p) (hn : n < 2 ^ 24) : n < 12 + p + p * p + p * p * p := by
  have hcube : 256 * 256 * 256 ≤ p * p * p := Nat.mul_le_mul (Nat.mul_le_mul hp hp) hp
  omega

/-- The positions that the driver computes are those of the disk, as far as they reach. -/
theorem calculateBlockPointerPos_eq (h : fs.logBlockSize ≤ 2) {n : ℕ}
    (hn : n < 12 + fs.addrPerBlock + fs.addrPerBlock * fs.addrPerBlock +
      fs.addrPerBlock * fs.addrPerBlock * fs.addrPerBlock) :
    fs.ext2CalculateBlockPointerPos n = some (pointerPath (fs.blockSize / 4) n) := by
  obtain ⟨-, hlo, hhi, hper⟩ := blockSize_of_le h
  set p := fs.addrPerBlock with hp
  have hp' : fs.blockSize / 4 = p := by omega
  have hle : p ≤ 1024 := by omega
  have hsq : toUint32 (p * p) = p * p := by
    refine Nat.mod_eq_of_lt ?_
    calc p * p ≤ 1024 * 1024 := Nat.mul_le_mul hle hle
      _ < 2 ^ 32 := by norm_num
  have hcube : toUint32 (p * p * p) = p * p * p := by
    refine Nat.mod_eq_of_lt ?_
    calc p * p * p ≤ 1024 * 1024 * 1024 := Nat.mul_le_mul (Nat.mul_le_mul hle hle) hle
      _ < 2 ^ 32 := by norm_num
  rw [hp', pointerPath, ext2CalculateBlockPointerPos]
  simp only [← hp, hsq, hcube, ndirBlocks]
  by_cases h₁ : n < 12
  · simp [h₁]
  · by_cases h₂ : n < 12 + p
    · rw [if_neg h₁, if_pos (by omega), if_neg h₁, if_pos h₂]
    · by_cases h₃ : n < 12 + p + p * p
      · rw [if_neg h₁, if_neg (by omega), if_pos (by omega), if_neg h₁, if_neg h₂, if_pos h₃]
      · have hdvd : p ∣ p * p := Nat.dvd_mul_right p p
        rw [if_neg h₁, if_neg (by omega), if_neg (by omega), if_pos (by omega), if_neg h₁, if_neg h₂,
          if_neg h₃, Nat.mod_mod_of_dvd _ hdvd, Nat.mod_mul_right_div_self]

/-- The positions after the first one are those of pointers in a block. -/
theorem lt_of_mem_pointerPath {p n j : ℕ} (hp : 0 < p) (hn : n < 12 + p + p * p + p * p * p)
    (hj : j ∈ (pointerPath p n).tail) : j < p := by
  rw [pointerPath] at hj
  split_ifs at hj with h₁ h₂ h₃
  · simp at hj
  · obtain rfl : j = n - 12 := by simpa using hj
    omega
  · have hj' : j = (n - 12 - p) / p ∨ j = (n - 12 - p) % p := by simpa using hj
    rcases hj' with rfl | rfl
    · exact Nat.div_lt_of_lt_mul (by omega)
    · exact Nat.mod_lt _ hp
  · have hj' : j = (n - 12 - p - p * p) / (p * p) ∨ j = (n - 12 - p - p * p) / p % p ∨
        j = (n - 12 - p - p * p) % p := by simpa using hj
    rcases hj' with rfl | rfl | rfl
    · exact Nat.div_lt_of_lt_mul (by omega)
    · exact Nat.mod_lt _ hp
    · exact Nat.mod_lt _ hp

/-- **The walk is right where nothing is truncated**: for a logical block whose indirect blocks have
numbers of 16 bits, if there is memory for them. -/
theorem Delivers.fileBlockToFsBlock (h : fs.Delivers disk) (hlog : fs.logBlockSize ≤ 2) {n : ℕ}
    (hn : n < 12 + fs.addrPerBlock + fs.addrPerBlock * fs.addrPerBlock +
      fs.addrPerBlock * fs.addrPerBlock * fs.addrPerBlock)
    (hnarrow : inode.Narrow disk fs.blockSize n) (hcached : inode.Cached disk fs.blockSize fs n) :
    fs.fileBlockToFsBlock inode n = designated disk fs.blockSize inode n := by
  obtain ⟨-, hlo, hhi, hper⟩ := blockSize_of_le hlog
  have hp' : fs.blockSize / 4 = fs.addrPerBlock := by omega
  have hlt : ∀ j ∈ (pointerPath (fs.blockSize / 4) n).tail, j < fs.blockSize / 4 := by
    intro j hj
    exact lt_of_mem_pointerPath (by omega) (hp' ▸ hn) hj
  -- A direct block, or an entry of the inode, a chain of tables and an entry of the last one.
  have hpath : pointerPath (fs.blockSize / 4) n = [n] ∨ ∃ i between last,
      pointerPath (fs.blockSize / 4) n = i :: (between ++ [last]) := by
    rw [pointerPath]
    split_ifs
    · exact Or.inl rfl
    · exact Or.inr ⟨_, [], _, rfl⟩
    · exact Or.inr ⟨_, [_], _, rfl⟩
    · exact Or.inr ⟨_, [_, _], _, rfl⟩
  rw [Inode.Narrow] at hnarrow
  rw [Inode.Cached] at hcached
  rw [Ext2.fileBlockToFsBlock, calculateBlockPointerPos_eq hlog hn, Option.getD_some, designated]
  rcases hpath with hpath | ⟨i, between, last, hpath⟩
  · simp [hpath, follow]
  · rw [hpath] at hlt hnarrow hcached ⊢
    have hnar : Kernel.Narrow disk fs.blockSize (inode.block.getD i 0) (between ++ [last]) := hnarrow
    -- The first table has a number of 16 bits, too.
    have hfirst : toUint (inode.block.getD i 0) = inode.block.getD i 0 := by
      refine Nat.mod_eq_of_lt ?_
      cases between with
      | nil => exact hnar.1
      | cons j between => exact hnar.1
    have hdig := h.digDown hhi (hlt last (by simp)) between
      (fun j hj => hlt j (by simp [hj])) hnar hcached
    have hlast : (i :: (between ++ [last])).getLastD 0 = last := by simp [List.getLastD]
    rw [if_neg (by simp), ext2GetIndirectBlockPointerCacheBlock, hlast]
    simp only [List.headD_cons, List.tail_cons, List.dropLast_concat, hfirst]
    exact hdig

theorem Serves.fileBlockToFsBlock (h : fs.Serves disk) (hlog : fs.logBlockSize ≤ 2) {n : ℕ}
    (hn : n < 12 + fs.addrPerBlock + fs.addrPerBlock * fs.addrPerBlock +
      fs.addrPerBlock * fs.addrPerBlock * fs.addrPerBlock)
    (hnarrow : inode.Narrow disk fs.blockSize n) :
    fs.fileBlockToFsBlock inode n = designated disk fs.blockSize inode n :=
  h.delivers.fileBlockToFsBlock hlog hn hnarrow (h.cached _ _ _)

/-- On a disk of at most `2 ^ 16` blocks all numbers have 16 bits. -/
theorem narrow_of_within {bs count : ℕ} (hcount : count ≤ 2 ^ 16) (path : List ℕ)
    (hpos : ∀ j ∈ path, j < bs / 4) :
    ∀ {b : ℕ}, Within disk bs count path.length b → Narrow disk bs b path := by
  induction path with
  | nil => exact fun _ => trivial
  | cons j path ih =>
    intro b hb
    refine ⟨lt_of_lt_of_le hb.1 hcount, ?_⟩
    exact ih (fun j' hj' => hpos j' (List.mem_cons_of_mem _ hj')) (hb.2 j (hpos j List.mem_cons_self))

theorem narrow_of_consistent {bs count n : ℕ} (h : Consistent disk bs count inode)
    (hcount : count ≤ 2 ^ 16) (hbs : 0 < bs / 4)
    (hn : n < 12 + bs / 4 + bs / 4 * (bs / 4) + bs / 4 * (bs / 4) * (bs / 4)) :
    inode.Narrow disk bs n := by
  have hlt : ∀ j ∈ (pointerPath (bs / 4) n).tail, j < bs / 4 :=
    fun j hj => lt_of_mem_pointerPath hbs hn hj
  have hlevel : (pointerPath (bs / 4) n).tail = [] ∨ ∃ level, 1 ≤ level ∧ level ≤ 3 ∧
      (pointerPath (bs / 4) n).headD 0 = 11 + level ∧ (pointerPath (bs / 4) n).tail.length = level := by
    rw [pointerPath]
    split_ifs
    · exact Or.inl rfl
    · exact Or.inr ⟨1, by simp⟩
    · exact Or.inr ⟨2, by simp⟩
    · exact Or.inr ⟨3, by simp⟩
  rw [Inode.Narrow]
  rcases hlevel with hnil | ⟨level, h₁, h₃, hhead, hlen⟩
  · simp only [hnil]
    trivial
  · refine narrow_of_within hcount _ hlt ?_
    rw [hhead, hlen]
    exact h.indirect level h₁ h₃

end Ext2

end I80k.Kernel

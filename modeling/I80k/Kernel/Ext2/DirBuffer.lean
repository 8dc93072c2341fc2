import I80k.Kernel.Ext2.Tree
import I80k.Libc.MallocSize

/-!
# The buffer of a lookup

`ext2_dir_lookup` asks `malloc` for a buffer of the size of a block, and does not test whether it got one.
`ext2_read_inode` has the same result with a null pointer, since it ignores the one of `blk_read`, which refuses the
pointer: so the records that the lookup then goes through are those at the address 0. The lookup has no result there.

The `malloc` of the libc has at most 4094 bytes to give, so this is what happens on every file system with blocks of
4096 bytes.

## Main definitions

* `Ext2.ext2DirLookupOn`: `ext2_dir_lookup`, on a heap
* `Ext2.ext2LookupOn`: `ext2_lookup`, on a heap

## Main results

* `Ext2.ext2DirLookupOn_of_obtains`: where there is memory, the lookups are those with a buffer
* `Ext2.ext2DirLookupOn_of_not`, `Ext2.ext2DirLookupOn_null`: and where there is not, only an empty read has a result
* `Ext2.logBlockSize_le_of_obtains`: there is no memory for a block of 4096 bytes
-/

namespace I80k.Kernel

namespace Ext2

section Definitions

variable (fs : Ext2) {β : Type} (sbrk : Libc.Sbrk β) (heap : Libc.Data β)

/-- The argument of `malloc`. -/
def bufferSize : Libc.Word := BitVec.ofNat 16 fs.blockSize

/-- `ext2_dir_lookup`, with its call of `malloc`. -/
def ext2DirLookupOn (dir : Inode) (name : List Char8) : Option (Int16 × Option ℕ) :=
  if ¬ dir.IsDir then some (errNotDir, none)
  else
    (Libc.malloc sbrk heap fs.bufferSize).bind fun r =>
      if r.2 ≠ 0 then fs.dirBlocks dir name 1025 0 fs.fresh
      else
        -- the result is the one with a buffer: only `blk_read` looks at the pointer
        let err := (fs.ext2ReadInode dir (toUint32 (0 * fs.blockSize)) (toUint fs.blockSize)).1
        if err ≤ 0 then some (err, none) else none

/-- `ext2_lookup`, with the calls of `malloc` of its lookups. Each of them gives its buffer back, and so there is
memory for the next one (`Libc.Client.Inv.obtains_free`): all of them are on the heap that the first one finds. -/
def ext2LookupOn (path : List Char8) (inum : ℕ) : Option (Int16 × ℕ) :=
  fs.ext2LookupBy (fs.ext2DirLookupOn sbrk heap) path inum

end Definitions

variable {fs : Ext2} {β : Type} {sbrk : Libc.Sbrk β} {heap : Libc.Data β}

/-- Where there is memory for the buffer, a lookup is the one with a buffer. -/
theorem ext2DirLookupOn_of_obtains (h : Libc.Obtains sbrk heap fs.bufferSize) :
    fs.ext2DirLookupOn sbrk heap = fs.ext2DirLookup := by
  obtain ⟨heap', buf, hmalloc, hbuf, -⟩ := Libc.malloc_of_obtains h
  funext dir name
  rw [ext2DirLookupOn, hmalloc, Option.bind_some, if_pos hbuf, ext2DirLookup]

theorem ext2LookupOn_of_obtains (h : Libc.Obtains sbrk heap fs.bufferSize) :
    fs.ext2LookupOn sbrk heap = fs.ext2Lookup := by
  funext path inum
  rw [ext2LookupOn, ext2DirLookupOn_of_obtains h]
  rfl

/-- The sizes of blocks, for which `malloc` returns. -/
theorem bufferSize_cases (hlog : fs.logBlockSize ≤ 2) :
    fs.bufferSize = 1024 ∧ fs.logBlockSize = 0 ∨ fs.bufferSize = 2048 ∧ fs.logBlockSize = 1 ∨
      fs.bufferSize = 4096 ∧ fs.logBlockSize = 2 := by
  rw [bufferSize, (blockSize_of_le hlog).1]
  interval_cases fs.logBlockSize
  · exact Or.inl ⟨rfl, rfl⟩
  · exact Or.inr (Or.inl ⟨rfl, rfl⟩)
  · exact Or.inr (Or.inr ⟨rfl, rfl⟩)

/-- Where there is none, a lookup of a directory has a result only if nothing is read. -/
theorem ext2DirLookupOn_of_not (hlog : fs.logBlockSize ≤ 2) (h : ¬ Libc.Obtains sbrk heap fs.bufferSize)
    {dir : Inode} (hdir : dir.IsDir) (name : List Char8) :
    fs.ext2DirLookupOn sbrk heap dir name =
      if (fs.ext2ReadInode dir 0 (toUint fs.blockSize)).1 ≤ 0 then
        some ((fs.ext2ReadInode dir 0 (toUint fs.blockSize)).1, none)
      else none := by
  have hreturns : (Libc.malloc sbrk heap fs.bufferSize).isSome := by
    rcases bufferSize_cases hlog with ⟨hsize, -⟩ | ⟨hsize, -⟩ | ⟨hsize, -⟩
    · rw [hsize]
      exact Libc.malloc_isSome (by decide) _ _
    · rw [hsize]
      exact Libc.malloc_isSome (by decide) _ _
    · rw [hsize]
      exact Libc.malloc_isSome (by decide) _ _
  -- `malloc` returns, and can only return a null pointer
  obtain ⟨⟨heap', buf⟩, hmalloc⟩ := Option.isSome_iff_exists.mp hreturns
  have hbuf : buf = 0 := Libc.malloc_of_not_obtains h hmalloc
  rw [ext2DirLookupOn, if_neg (not_not.mpr hdir), hmalloc, Option.bind_some, if_neg (not_not.mpr hbuf), Nat.zero_mul,
    show toUint32 0 = 0 from rfl]

/-- So it has none for a directory of at least one block. -/
theorem ext2DirLookupOn_null (hlog : fs.logBlockSize ≤ 2) (h : ¬ Libc.Obtains sbrk heap fs.bufferSize)
    {dir : Inode} (hdir : dir.IsDir) (hpos : fs.blockSize ≤ dir.size) (hsize : dir.size < 2 ^ 31) (name : List Char8) :
    fs.ext2DirLookupOn sbrk heap dir name = none := by
  obtain ⟨-, hlo, hhi, -⟩ := blockSize_of_le hlog
  obtain ⟨hread, -⟩ := readInode_block hdir hlog hsize (show 0 < 2 ^ 16 by norm_num) (by omega)
  rw [Nat.zero_mul, show toUint32 0 = 0 from rfl] at hread
  -- a block is read, so the scan of the records at the address 0 begins
  have hfull : ¬ Int16.ofNat fs.blockSize ≤ 0 := by
    rw [Int16.le_iff_toInt_le, int16_toInt_of_lt (by omega), Int16.toInt_zero]
    omega
  rw [ext2DirLookupOn_of_not hlog h hdir, hread, if_neg hfull]

/-- There is no memory for a block of 4096 bytes. -/
theorem logBlockSize_le_of_obtains (hlog : fs.logBlockSize ≤ 2) (h : Libc.Obtains sbrk heap fs.bufferSize) :
    fs.logBlockSize ≤ 1 := by
  rcases bufferSize_cases hlog with ⟨-, hcase⟩ | ⟨-, hcase⟩ | ⟨hsize, -⟩
  · omega
  · omega
  -- 4096 bytes and a header do not fit in a page
  · rw [hsize] at h
    obtain ⟨heap', buf, hmalloc, hbuf, -⟩ := Libc.malloc_of_obtains h
    exact absurd (Prod.mk.inj (Libc.Client.malloc_large (by decide) (by decide) hmalloc)).2 hbuf

end Ext2

/-- The heap before the first call of `malloc`. -/
def bootHeap : Libc.Data ℕ := (Libc.Client.init 0x1000 fun _ => 0).toData

/-- There is memory for a buffer of 1024 bytes, in a new page. -/
theorem obtains_bootHeap : Libc.Obtains (Libc.contiguousSbrk true) bootHeap 1024 :=
  ⟨by decide, 11, by decide, by decide, Or.inr ⟨fun _ _ _ => rfl, by decide, by decide⟩⟩

end I80k.Kernel

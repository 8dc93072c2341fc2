import I80k.Kernel.Ext2.BlockWidth
import I80k.Lib.Slice

/-!
# The buffer of a read

`ext2_read_inode` fills the caller's buffer in three phases, each of which can be empty: the end of the
first block and the start of the last one go through a copy of the block, and the blocks between them are
read straight into the buffer. This module follows the variables of the function through the three phases.
If the blocks can be read, the buffer holds the bytes of the file, up to the length of the read and no
further. But the function looks at no result on the way: it returns the length of the read also when a
block could not be read, or when it could not be found because an indirect block could not be read.

## Main definitions

* `Ext2.ReadVars`: the variables of `ext2_read_inode`
* `Ext2.readInodeVars`, `Ext2.ext2ReadInodeInto`: the function, with the caller's buffer
* `Ext2.fileByte`: the bytes of a file
* `Ext2.Filled`: the buffer after part of a read
* `Ext2.Access`, `Ext2.accesses`: the blocks that a read accesses on the device

## Main results

* `Ext2.Filled.advance`: one block, in any phase
* `Ext2.ext2ReadInodeInto_eq`: the bytes are those of `ext2ReadInode`
* `ext2_read_inode_bytes`: the buffer and the result of a read
* `ext2_read_errors_iff`: a failure is reported only if the number of bytes is negative as an `ssize_t`
-/

namespace I80k.Kernel

open FlatArray

/-- The length of a read, trimmed to the end of the file. -/
def Inode.trimmed (inode : Inode) (offset len : ℕ) : ℕ :=
  if inode.size ≤ offset then 0 else min len (inode.size - offset)

namespace Ext2

/-- The variables of `ext2_read_inode`. -/
structure ReadVars where
  /-- The caller's buffer, from `_buf` on. -/
  buf : List UInt8
  /-- `buf - _buf`. -/
  pos : ℕ
  /-- `file_block`. -/
  fileBlock : ℕ
  /-- `len`. -/
  len : ℕ
  /-- `bytes_read`. -/
  bytesRead : ℕ
  /-- The logical blocks that were looked up so far. -/
  looked : List ℕ

/-- Puts bytes of the current block into the buffer, and increments everything by `count`. -/
def ReadVars.advance (v : ReadVars) (bytes : List UInt8) (count : ℕ) : ReadVars where
  buf := splice v.buf v.pos bytes
  pos := v.pos + count
  fileBlock := toUint (v.fileBlock + 1)
  len := v.len - count
  bytesRead := toUint (v.bytesRead + count)
  looked := v.looked ++ [v.fileBlock]

variable (fs : Ext2) (inode : Inode)

/-- The partial first block. -/
def readFirst (offset : ℕ) (v : ReadVars) : ReadVars :=
  if offset % fs.blockSize ≠ 0 then
    let temp := fs.readFileBlock inode v.fileBlock
    let blockOffset := toUint (offset % fs.blockSize)
    let tocopy := min v.len (fs.blockSize - blockOffset)
    v.advance (slice temp blockOffset tocopy) tocopy
  else v

/-- The middle blocks: the loop, for at most `fuel` turns. -/
def readMiddle : ℕ → ReadVars → ReadVars
  | 0, v => v
  | fuel + 1, v =>
    if fs.blockSize ≤ v.len then
      readMiddle fuel (v.advance (fs.readFileBlock inode v.fileBlock) fs.blockSize)
    else v

/-- The partial last block. -/
def readLast (v : ReadVars) : ReadVars :=
  if 0 < v.len then
    let temp := fs.readFileBlock inode v.fileBlock
    { v with
      buf := splice v.buf v.pos (slice temp 0 v.len)
      bytesRead := toUint (v.bytesRead + v.len)
      looked := v.looked ++ [v.fileBlock] }
  else v

/-- The variables when `ext2_read_inode` returns. -/
def readInodeVars (buf : List UInt8) (offset len : ℕ) : ReadVars :=
  let len := fs.trimLen inode offset len
  let v : ReadVars := ⟨buf, 0, toUint (offset / fs.blockSize), len, 0, []⟩
  if len = 0 then v
  else fs.readLast inode (fs.readMiddle inode (len + 1) (fs.readFirst inode offset v))

/-- `ext2_read_inode(ext2, inode, buf, offset, len)`: its result, and the buffer afterwards. The offset is
given by its 32 bits. -/
def ext2ReadInodeInto (buf : List UInt8) (offset len : ℕ) : Int16 × List UInt8 :=
  let v := fs.readInodeVars inode buf offset len
  (Int16.ofNat v.bytesRead, v.buf)

/-! ## The bytes of a file -/

/-- The byte of the file at an offset: of the physical block that the logical block is translated to, or 0
in a hole. -/
def fileByte (disk : ℕ → UInt8) (offset : ℕ) : UInt8 :=
  let physBlock := fs.fileBlockToFsBlock inode (offset / fs.blockSize)
  if physBlock = 0 then 0 else disk (physBlock * fs.blockSize + offset % fs.blockSize)

/-- The bytes of the file from an offset on. -/
def fileBytes (disk : ℕ → UInt8) (offset count : ℕ) : List UInt8 :=
  (List.range count).map fun i => fs.fileByte inode disk (offset + i)

/-- The device read of the logical block succeeds, unless it is a hole. -/
def ReadsBlock (disk : ℕ → UInt8) (fileBlock : ℕ) : Prop :=
  let physBlock := fs.fileBlockToFsBlock inode fileBlock
  physBlock ≠ 0 →
    fs.ext2ReadBlock physBlock = (Int16.ofNat fs.blockSize, diskBlock disk fs.blockSize physBlock)

variable {fs inode} {disk : ℕ → UInt8}

@[simp] theorem length_fileBytes (offset count : ℕ) :
    (fs.fileBytes inode disk offset count).length = count := by
  simp [fileBytes]

theorem fileBytes_append (offset m n : ℕ) :
    fs.fileBytes inode disk offset m ++ fs.fileBytes inode disk (offset + m) n =
      fs.fileBytes inode disk offset (m + n) := by
  simp only [fileBytes, List.range_add, List.map_append, List.map_map]
  congr 1
  refine List.map_congr_left fun i _ => ?_
  simp [Nat.add_assoc]

theorem slice_fileBytes {offset count start n : ℕ} (h : start + n ≤ count) :
    slice (fs.fileBytes inode disk offset count) start n = fs.fileBytes inode disk (offset + start) n := by
  rw [slice, fileBytes, ← List.map_drop, ← List.map_take, fileBytes]
  refine List.ext_getElem ?_ fun i hi hi' => ?_
  · simp only [List.length_map, List.length_take, List.length_drop, List.length_range]
    omega
  · simp [Nat.add_assoc]

/-- A logical block that can be read has the bytes of the file. -/
theorem readFileBlock_eq {b : ℕ} (h : fs.ReadsBlock inode disk b) :
    fs.readFileBlock inode b = fs.fileBytes inode disk (b * fs.blockSize) fs.blockSize := by
  have hbyte : ∀ i < fs.blockSize, fs.fileByte inode disk (b * fs.blockSize + i) =
      if fs.fileBlockToFsBlock inode b = 0 then 0
      else disk (fs.fileBlockToFsBlock inode b * fs.blockSize + i) := by
    intro i hi
    have hdiv : (b * fs.blockSize + i) / fs.blockSize = b := by
      rw [mul_comm, Nat.mul_add_div (by omega), Nat.div_eq_of_lt hi, Nat.add_zero]
    have hmod : (b * fs.blockSize + i) % fs.blockSize = i := by
      rw [mul_comm, Nat.mul_add_mod, Nat.mod_eq_of_lt hi]
    simp only [fileByte, hdiv, hmod]
  simp only [readFileBlock]
  split_ifs with h₀
  · refine List.ext_getElem (by simp) fun i hi hi' => ?_
    have hlt : i < fs.blockSize := by simpa using hi
    simp [fileBytes, hbyte i hlt, h₀]
  · rw [h h₀, diskBlock, fileBytes]
    refine List.map_congr_left fun i hi => ?_
    rw [hbyte i (List.mem_range.mp hi), if_neg h₀]

/-- A disk without errors has the bytes of every block that it can address. -/
theorem readsBlock_serving {log b : ℕ}
    (h : (serving log disk).fileBlockToFsBlock inode b * (serving log disk).blockSize < 2 ^ 32) :
    (serving log disk).ReadsBlock inode disk b := by
  intro _
  rw [ext2ReadBlock, toUint32_of_lt h]
  rfl

/-! ## The length of a read -/

/-- The block sizes that `blk_read` can report as an `int`. -/
theorem blockSize_le (h : fs.logBlockSize ≤ 4) :
    fs.blockSize = 1024 * 2 ^ fs.logBlockSize ∧ 1024 ≤ fs.blockSize ∧ fs.blockSize ≤ 16384 := by
  have hle : 2 ^ fs.logBlockSize ≤ 2 ^ 4 := Nat.pow_le_pow_right (by norm_num) h
  have hpos : 0 < 2 ^ fs.logBlockSize := by positivity
  have hbs : fs.blockSize = 1024 * 2 ^ fs.logBlockSize := by
    rw [blockSize, toUint32_of_lt (by omega)]
  omega

theorem trimLen_lt (offset : ℕ) {len : ℕ} (h : len < 2 ^ 16) : fs.trimLen inode offset len < 2 ^ 16 := by
  simp only [trimLen]
  split_ifs
  · norm_num
  · exact Nat.mod_lt _ (by norm_num)
  · exact h

/-- In files of at most 65536 blocks nothing overflows when the read is trimmed. -/
theorem trimLen_eq (hlog : fs.logBlockSize ≤ 4) (hfeature : fs.featureRoCompat &&& 2 = 0)
    (hsize : inode.size ≤ 65536 * fs.blockSize) {offset len : ℕ} (hoffset : offset < 2 ^ 31)
    (hlen : len < 2 ^ 16) : fs.trimLen inode offset len = inode.trimmed offset len := by
  obtain ⟨-, -, hbs⟩ := blockSize_le hlog
  have hfile : fs.ext2FileLen inode = inode.size := by
    rw [ext2FileLen, if_neg (by simp [hfeature]), toOff_of_lt (by omega)]
  simp only [trimLen, Inode.trimmed, hfile, toOff_of_lt hoffset]
  by_cases hle : inode.size < offset
  · rw [if_pos (by omega), if_pos hle.le]
  · rw [if_neg (by omega), toOff_of_lt (by omega)]
    split_ifs <;> omega

/-! ## The buffer, block by block -/

/-- After part of a read of `n` bytes: the buffer holds the bytes of the file so far, and the next one is
in the current block. -/
structure Filled (fs : Ext2) (inode : Inode) (disk : ℕ → UInt8) (buf : List UInt8) (offset n : ℕ)
    (v : ReadVars) : Prop where
  pos_add : v.pos + v.len = n
  bytesRead : v.bytesRead = v.pos
  buf_eq : v.buf = splice buf 0 (fs.fileBytes inode disk offset v.pos)
  fileBlock : v.len ≠ 0 → v.fileBlock = (offset + v.pos) / fs.blockSize

section Filled

variable {buf : List UInt8} {offset n : ℕ} {v : ReadVars}

theorem Filled.splice_eq (h : Filled fs inode disk buf offset n v) (count : ℕ) :
    splice v.buf v.pos (fs.fileBytes inode disk (offset + v.pos) count) =
      splice buf 0 (fs.fileBytes inode disk offset (v.pos + count)) := by
  have hsplice := @splice_splice _ buf (fs.fileBytes inode disk offset v.pos)
    (fs.fileBytes inode disk (offset + v.pos) count) 0 (Nat.zero_le _)
  rwa [length_fileBytes, Nat.zero_add, ← h.buf_eq, fileBytes_append] at hsplice

/-- **One block**: if the bytes are those of the file, and end where the block ends or where the read
ends, the buffer is filled with them too. -/
theorem Filled.advance (h : Filled fs inode disk buf offset n v) (hpos : 0 < fs.blockSize)
    (hblocks : offset + n ≤ 65536 * fs.blockSize) (hn : n < 2 ^ 16) {bytes : List UInt8} {count : ℕ}
    (hcount : count ≤ v.len) (hbytes : bytes = fs.fileBytes inode disk (offset + v.pos) count)
    (hend : (offset + v.pos) % fs.blockSize + count = fs.blockSize ∨ count = v.len) :
    Filled fs inode disk buf offset n (v.advance bytes count) := by
  have hadd := h.pos_add
  refine ⟨?_, ?_, ?_, fun hne => ?_⟩
  · simp only [ReadVars.advance]
    omega
  · simp only [ReadVars.advance, h.bytesRead]
    exact toUint_of_lt (by omega)
  · rw [ReadVars.advance, hbytes]
    exact h.splice_eq count
  · -- the read goes on, so the block was read to its end
    simp only [ReadVars.advance] at hne ⊢
    have hfull : (offset + v.pos) % fs.blockSize + count = fs.blockSize := by omega
    have hdiv := Nat.div_add_mod (offset + v.pos) fs.blockSize
    have hnext : offset + (v.pos + count) = fs.blockSize * ((offset + v.pos) / fs.blockSize + 1) := by
      rw [Nat.mul_add, Nat.mul_one]
      omega
    have hlt : (offset + v.pos) / fs.blockSize + 1 < 65536 := by
      refine Nat.lt_of_mul_lt_mul_left (a := fs.blockSize) ?_
      rw [← hnext, mul_comm fs.blockSize]
      omega
    rw [hnext, Nat.mul_div_cancel_left _ hpos, h.fileBlock (by omega), toUint_of_lt hlt]

/-- The blocks that a read of `n` bytes needs can be read. -/
def ReadsRange (fs : Ext2) (inode : Inode) (disk : ℕ → UInt8) (offset n : ℕ) : Prop :=
  ∀ b, offset / fs.blockSize ≤ b → b * fs.blockSize < offset + n → fs.ReadsBlock inode disk b

theorem ReadsRange.block (h : ReadsRange fs inode disk offset n)
    (hv : Filled fs inode disk buf offset n v) (hne : v.len ≠ 0) :
    fs.ReadsBlock inode disk v.fileBlock ∧
      v.fileBlock * fs.blockSize + (offset + v.pos) % fs.blockSize = offset + v.pos := by
  have hadd := hv.pos_add
  have hdiv := Nat.div_add_mod (offset + v.pos) fs.blockSize
  rw [hv.fileBlock hne, mul_comm]
  refine ⟨h _ (Nat.div_le_div_right (Nat.le_add_right _ _)) ?_, hdiv⟩
  rw [mul_comm]
  omega

theorem Filled.readFirst (h : Filled fs inode disk buf offset n v) (hv : v.pos = 0) (hlen : v.len ≠ 0)
    (hpos : 0 < fs.blockSize) (hbs : fs.blockSize ≤ 16384) (hblocks : offset + n ≤ 65536 * fs.blockSize)
    (hn : n < 2 ^ 16) (hread : ReadsRange fs inode disk offset n) :
    Filled fs inode disk buf offset n (fs.readFirst inode offset v) ∧
      ((fs.readFirst inode offset v).len ≠ 0 →
        (offset + (fs.readFirst inode offset v).pos) % fs.blockSize = 0) := by
  rw [Ext2.readFirst]
  split_ifs with hpart
  · have hlt := Nat.mod_lt offset hpos
    have hoff : toUint (offset % fs.blockSize) = offset % fs.blockSize := toUint_of_lt (by omega)
    obtain ⟨hblock, hstart⟩ := hread.block h hlen
    rw [hv, Nat.add_zero] at hstart
    simp only [hoff]
    refine ⟨h.advance hpos hblocks hn (min_le_left _ _) ?_ ?_, fun hne => ?_⟩
    · rw [readFileBlock_eq hblock, slice_fileBytes (by omega), hstart, hv, Nat.add_zero]
    · rw [hv, Nat.add_zero]
      omega
    · simp only [ReadVars.advance] at hne ⊢
      have hdiv := Nat.div_add_mod offset fs.blockSize
      -- What is left begins at the next block.
      have hnext : offset + (v.pos + min v.len (fs.blockSize - offset % fs.blockSize)) =
          fs.blockSize * (offset / fs.blockSize + 1) := by
        rw [Nat.mul_add, Nat.mul_one]
        omega
      rw [hnext, Nat.mul_mod_right]
  · refine ⟨h, fun _ => ?_⟩
    rw [hv, Nat.add_zero]
    exact not_not.mp hpart

/-- The loop over the middle blocks ends. -/
theorem readMiddle_len_lt (hpos : 0 < fs.blockSize) (fuel : ℕ) :
    ∀ {v : ReadVars}, v.len < fuel → (fs.readMiddle inode fuel v).len < fs.blockSize := by
  induction fuel with
  | zero =>
    intro v hfuel
    omega
  | succ fuel ih =>
    intro v hfuel
    rw [readMiddle]
    split_ifs with hle
    · refine ih ?_
      simp only [ReadVars.advance]
      omega
    · exact not_le.mp hle

theorem Filled.readMiddle (hpos : 0 < fs.blockSize) (hblocks : offset + n ≤ 65536 * fs.blockSize)
    (hn : n < 2 ^ 16) (hread : ReadsRange fs inode disk offset n) (fuel : ℕ) :
    ∀ {v : ReadVars}, Filled fs inode disk buf offset n v →
      (v.len ≠ 0 → (offset + v.pos) % fs.blockSize = 0) →
      Filled fs inode disk buf offset n (fs.readMiddle inode fuel v) ∧
        ((fs.readMiddle inode fuel v).len ≠ 0 →
          (offset + (fs.readMiddle inode fuel v).pos) % fs.blockSize = 0) := by
  induction fuel with
  | zero =>
    intro v h halign
    exact ⟨h, halign⟩
  | succ fuel ih =>
    intro v h halign
    rw [Ext2.readMiddle]
    split_ifs with hle
    · have hne : v.len ≠ 0 := by omega
      obtain ⟨hblock, hstart⟩ := hread.block h hne
      rw [halign hne, Nat.add_zero] at hstart
      refine ih (h.advance hpos hblocks hn hle ?_ ?_) (fun _ => ?_)
      · rw [readFileBlock_eq hblock, hstart]
      · exact Or.inl (by rw [halign hne, Nat.zero_add])
      · simp only [ReadVars.advance]
        rw [← Nat.add_assoc, Nat.add_mod_right, halign hne]
    · exact ⟨h, halign⟩

theorem Filled.readLast (h : Filled fs inode disk buf offset n v) (hn : n < 2 ^ 16)
    (hread : ReadsRange fs inode disk offset n) (hlt : v.len < fs.blockSize)
    (halign : v.len ≠ 0 → (offset + v.pos) % fs.blockSize = 0) :
    (fs.readLast inode v).bytesRead = n ∧
      (fs.readLast inode v).buf = splice buf 0 (fs.fileBytes inode disk offset n) := by
  have hadd := h.pos_add
  rw [Ext2.readLast]
  split_ifs with hpos
  · have hne : v.len ≠ 0 := by omega
    obtain ⟨hblock, hstart⟩ := hread.block h hne
    rw [halign hne, Nat.add_zero] at hstart
    refine ⟨?_, ?_⟩
    · simp only [h.bytesRead, hadd]
      exact toUint_of_lt hn
    · simp only
      rw [readFileBlock_eq hblock, slice_fileBytes (by omega), Nat.add_zero, hstart, h.splice_eq, hadd]
  · have hzero : v.pos = n := by omega
    exact ⟨h.bytesRead.trans hzero, hzero ▸ h.buf_eq⟩

end Filled

/-- **A read fills the buffer** with the bytes of the file, and counts them. -/
theorem readInodeVars_filled {offset len n : ℕ} (htrim : fs.trimLen inode offset len = n)
    (hpos : 0 < fs.blockSize) (hbs : fs.blockSize ≤ 16384)
    (hblocks : n ≠ 0 → offset + n ≤ 65536 * fs.blockSize) (hn : n < 2 ^ 16)
    (hread : ReadsRange fs inode disk offset n) (buf : List UInt8) :
    (fs.readInodeVars inode buf offset len).bytesRead = n ∧
      (fs.readInodeVars inode buf offset len).buf = splice buf 0 (fs.fileBytes inode disk offset n) := by
  simp only [readInodeVars, htrim]
  split_ifs with h₀
  · subst h₀
    exact ⟨rfl, (splice_nil buf 0).symm⟩
  · have hle := hblocks h₀
    have hstart : Filled fs inode disk buf offset n ⟨buf, 0, toUint (offset / fs.blockSize), n, 0, []⟩ := by
      refine ⟨Nat.zero_add n, rfl, (splice_nil buf 0).symm, fun _ => ?_⟩
      have hlt : offset / fs.blockSize < 65536 := by
        rw [Nat.div_lt_iff_lt_mul hpos]
        omega
      exact toUint_of_lt hlt
    obtain ⟨hfirst, halign⟩ := hstart.readFirst rfl h₀ hpos hbs hle hn hread
    have hfuel := hfirst.pos_add
    obtain ⟨hmiddle, halign⟩ := Filled.readMiddle hpos hle hn hread (n + 1) hfirst halign
    exact hmiddle.readLast hn hread (readMiddle_len_lt hpos (n + 1) (by omega)) halign

/-! ## The bytes of `ext2ReadInode` -/

/-- A copy of bytes out of a logical block of the range. -/
theorem bytes_copyOut {offset n start count : ℕ} (hread : ReadsRange fs inode disk offset n)
    (hblocks : offset + n ≤ 65536 * fs.blockSize) (hpos : 0 < fs.blockSize) (hle : offset ≤ start)
    (hlt : start < offset + n) (hcount : start % fs.blockSize + count ≤ fs.blockSize) :
    (fs.copyOut inode (toUint (start / fs.blockSize)) start (start % fs.blockSize) count).bytes =
      fs.fileBytes inode disk start count := by
  have hdiv := Nat.div_add_mod start fs.blockSize
  have hblock : start / fs.blockSize < 65536 := by
    rw [Nat.div_lt_iff_lt_mul hpos]
    omega
  have hreads : fs.ReadsBlock inode disk (start / fs.blockSize) := by
    refine hread _ (Nat.div_le_div_right hle) ?_
    rw [mul_comm]
    omega
  rw [toUint_of_lt hblock]
  calc (fs.copyOut inode (start / fs.blockSize) start (start % fs.blockSize) count).bytes
      = slice (fs.readFileBlock inode (start / fs.blockSize)) (start % fs.blockSize) count := rfl
    _ = fs.fileBytes inode disk (start / fs.blockSize * fs.blockSize + start % fs.blockSize) count := by
        rw [readFileBlock_eq hreads, slice_fileBytes hcount]
    _ = fs.fileBytes inode disk start count := by rw [mul_comm, hdiv]

/-- The middle blocks and the last one. -/
theorem bytes_readBlocks (hpos : 0 < fs.blockSize) {offset n : ℕ}
    (hread : ReadsRange fs inode disk offset n) (hblocks : offset + n ≤ 65536 * fs.blockSize)
    (fuel : ℕ) : ∀ {start len : ℕ}, offset ≤ start → start + len = offset + n →
      (len ≠ 0 → start % fs.blockSize = 0) → len < fuel →
      (fs.readBlocks inode fuel (toUint (start / fs.blockSize)) start len).bytes =
        fs.fileBytes inode disk start len := by
  -- Block by block; the next one begins where this one ends.
  induction fuel with
  | zero =>
    intro start len _ _ _ hfuel
    omega
  | succ fuel ih =>
    intro start len hle hend halign hfuel
    have hcopy := @bytes_copyOut fs inode disk offset n start
    rw [readBlocks]
    split_ifs with hfull hlast
    · have hmod := halign (by omega)
      have hfirst := @hcopy fs.blockSize hread hblocks hpos hle (by omega) (by omega)
      rw [hmod] at hfirst
      have hrest := @ih (start + fs.blockSize) (len - fs.blockSize) (by omega) (by omega)
        (fun _ => by rw [Nat.add_mod_right, hmod]) (by omega)
      rw [Nat.add_div_right _ hpos, ← toUint_toUint_add] at hrest
      rw [Transfer.append, hfirst, hrest, fileBytes_append, Nat.add_sub_cancel' hfull]
    · have hmod := halign (by omega)
      have hfirst := @hcopy len hread hblocks hpos hle (by omega) (by omega)
      rw [hmod] at hfirst
      exact hfirst
    · obtain rfl : len = 0 := by omega
      rfl

/-- Without the buffer, `ext2ReadInode` gives the same bytes. -/
theorem bytes_readInode {offset len n : ℕ} (htrim : fs.trimLen inode offset len = n)
    (hpos : 0 < fs.blockSize) (hblocks : n ≠ 0 → offset + n ≤ 65536 * fs.blockSize)
    (hread : ReadsRange fs inode disk offset n) :
    (fs.ext2ReadInode inode offset len).1 = Int16.ofNat n ∧
      (fs.ext2ReadInode inode offset len).2.bytes = fs.fileBytes inode disk offset n := by
  simp only [ext2ReadInode, htrim]
  split_ifs with h₀ hpart
  · subst h₀
    exact ⟨rfl, rfl⟩
  · refine ⟨rfl, ?_⟩
    have hle := hblocks h₀
    have hlt := Nat.mod_lt offset hpos
    have hdiv := Nat.div_add_mod offset fs.blockSize
    have hfirst := bytes_copyOut hread hle hpos le_rfl (show offset < offset + n by omega)
      (show offset % fs.blockSize + min n (fs.blockSize - offset % fs.blockSize) ≤ fs.blockSize by omega)
    rw [Transfer.append, hfirst]
    rcases le_total n (fs.blockSize - offset % fs.blockSize) with hmin | hmin
    · -- the read ends in its first block
      have hnone : ∀ fileBlock start, (fs.readBlocks inode (n + 1) fileBlock start 0).bytes = [] := by
        intro fileBlock start
        rw [readBlocks, if_neg (not_le.mpr hpos), if_neg (lt_irrefl 0)]
      rw [min_eq_left hmin, Nat.sub_self, hnone, List.append_nil]
    · have hnext : offset + (fs.blockSize - offset % fs.blockSize) =
          fs.blockSize * (offset / fs.blockSize + 1) := by
        rw [Nat.mul_add, Nat.mul_one]
        omega
      have hmod : (offset + (fs.blockSize - offset % fs.blockSize)) % fs.blockSize = 0 := by
        rw [hnext, Nat.mul_mod_right]
      have hrest := bytes_readBlocks hpos hread hle (n + 1)
        (show offset ≤ offset + (fs.blockSize - offset % fs.blockSize) by omega)
        (show _ + (n - (fs.blockSize - offset % fs.blockSize)) = offset + n by omega)
        (fun _ => hmod) (by omega)
      have hdiv' : (offset + (fs.blockSize - offset % fs.blockSize)) / fs.blockSize =
          offset / fs.blockSize + 1 := by
        rw [hnext, Nat.mul_div_cancel_left _ hpos]
      rw [hdiv', ← toUint_toUint_add] at hrest
      rw [min_eq_right hmin, hrest, fileBytes_append, Nat.add_sub_cancel' hmin]
  · refine ⟨rfl, ?_⟩
    exact bytes_readBlocks hpos hread (hblocks h₀) (n + 1) le_rfl rfl (fun _ => not_not.mp hpart) (by omega)

/-- The function with the buffer, and the one without it. -/
theorem ext2ReadInodeInto_eq {offset len n : ℕ} (htrim : fs.trimLen inode offset len = n)
    (hpos : 0 < fs.blockSize) (hbs : fs.blockSize ≤ 16384)
    (hblocks : n ≠ 0 → offset + n ≤ 65536 * fs.blockSize) (hn : n < 2 ^ 16)
    (hread : ReadsRange fs inode disk offset n) (buf : List UInt8) :
    fs.ext2ReadInodeInto inode buf offset len =
      ((fs.ext2ReadInode inode offset len).1, splice buf 0 (fs.ext2ReadInode inode offset len).2.bytes) := by
  obtain ⟨hcount, hbuf⟩ := readInodeVars_filled htrim hpos hbs hblocks hn hread buf
  obtain ⟨hresult, hbytes⟩ := bytes_readInode htrim hpos hblocks hread
  rw [ext2ReadInodeInto, hcount, hbuf, hresult, hbytes]

end Ext2

/-- **A read assembles the bytes of the file.** For every inode of at most 65536 blocks, every offset and
every length, if the blocks of the read that are no holes can be read from the device: `ext2_read_inode`
returns the length of the read, trimmed to the end of the file, puts the bytes of the file into the buffer,
and leaves the rest of the buffer as it was. -/
theorem ext2_read_inode_bytes (fs : Ext2) (disk : ℕ → UInt8) (inode : Inode) (buf : List UInt8)
    (offset len n : ℕ) (hlog : fs.logBlockSize ≤ 4) (hfeature : fs.featureRoCompat &&& 2 = 0)
    (hsize : inode.size ≤ 65536 * fs.blockSize) (hoffset : offset < 2 ^ 31) (hlen : len < 2 ^ 16)
    (hn : inode.trimmed offset len = n) (hmax : n ≤ 32767)
    (hread : Ext2.ReadsRange fs inode disk offset n) :
    (fs.ext2ReadInodeInto inode buf offset len).1.toInt = n ∧
      (fs.ext2ReadInodeInto inode buf offset len).2.take n =
        (List.range n).map (fun i => fs.fileByte inode disk (offset + i)) ∧
      (fs.ext2ReadInodeInto inode buf offset len).2.drop n = buf.drop n := by
  obtain ⟨-, hlo, hhi⟩ := Ext2.blockSize_le hlog
  have htrim : fs.trimLen inode offset len = n :=
    (Ext2.trimLen_eq hlog hfeature hsize hoffset hlen).trans hn
  have hblocks : n ≠ 0 → offset + n ≤ 65536 * fs.blockSize := by
    intro hne
    rw [Inode.trimmed] at hn
    split_ifs at hn <;> omega
  obtain ⟨hcount, hbuf⟩ :=
    Ext2.readInodeVars_filled htrim (by omega) hhi hblocks (by omega) hread buf
  have hlength := @Ext2.length_fileBytes fs inode disk offset n
  refine ⟨?_, ?_, ?_⟩
  · rw [Ext2.ext2ReadInodeInto, hcount]
    exact int16_toInt_of_lt (by omega)
  · have htake := @take_splice _ buf (fs.fileBytes inode disk offset n)
    rwa [hlength, ← hbuf] at htake
  · have hdrop := @drop_splice _ buf (fs.fileBytes inode disk offset n)
    rwa [hlength, ← hbuf] at hdrop

/-- A file with a hole between two blocks, read from the end of the first to the middle of the last. -/
theorem ext2_read_inode_bytes_hole :
    let fs := Ext2.serving 0 UInt8.ofNat
    let inode : Inode := ⟨0x8000, 3000, [20, 0, 22, 0, 0, 0, 0, 0, 0, 0, 0, 0, 0, 0, 0]⟩
    (fs.ext2ReadInodeInto inode (List.replicate 4000 7) 1000 4000).1.toInt = 2000 ∧
      (fs.ext2ReadInodeInto inode (List.replicate 4000 7) 1000 4000).2.take 2000 =
        (List.range 2000).map (fun i => fs.fileByte inode UInt8.ofNat (1000 + i)) ∧
      (fs.ext2ReadInodeInto inode (List.replicate 4000 7) 1000 4000).2.drop 2000 =
        (List.replicate 4000 7).drop 2000 := by
  intro fs inode
  refine ext2_read_inode_bytes fs UInt8.ofNat inode (List.replicate 4000 7) 1000 4000 2000 (by decide)
    (by decide) (by decide) (by norm_num) (by norm_num) (by decide) (by norm_num) ?_
  intro b _ hb _
  have hbs : fs.blockSize = 1024 := by decide
  rw [hbs] at hb
  have hblocks : ∀ b < 3, fs.fileBlockToFsBlock inode b * fs.blockSize < 2 ^ 32 := by decide
  rw [Ext2.ext2ReadBlock, toUint32_of_lt (hblocks b (by omega))]
  rfl

/-! ## Failures -/

namespace Ext2

/-- An access to a block of the device. -/
inductive Access
  /-- `ext2_get_block`, for an indirect block. -/
  | indirect (bnum : ℕ)
  /-- `ext2_read_block`, for a block of data. -/
  | data (bnum : ℕ)
  deriving DecidableEq

variable (fs : Ext2)

/-- The buffer cannot be allocated, or the device read fails or gives less than a block. -/
def Access.Fails : Access → Prop
  | .indirect bnum => fs.alloc bnum = false ∨ (fs.ext2ReadBlock bnum).1.toInt < fs.blockSize
  | .data bnum => (fs.ext2ReadBlock bnum).1.toInt < fs.blockSize

instance : ∀ access : Access, Decidable (access.Fails fs)
  | .indirect _ => inferInstanceAs (Decidable (_ ∨ _))
  | .data _ => inferInstanceAs (Decidable (_ < _))

/-- The accesses of `ext2_get_indirect_block_pointer_cache_block`, as in `digDown`. -/
def digAccesses (currentBlock : ℕ) : List ℕ → List Access
  | [] => if currentBlock = 0 then [] else [.indirect currentBlock]
  | pos :: rest =>
    if currentBlock = 0 then []
    else .indirect currentBlock ::
      match fs.ext2GetBlock currentBlock with
      | .error _ => []
      | .ok block => digAccesses (toUint (le32 block (4 * pos))) rest

/-- The accesses for a logical block: the indirect blocks that lead to it, and the block itself. -/
def blockAccesses (inode : Inode) (fileBlock : ℕ) : List Access :=
  let pos := (fs.ext2CalculateBlockPointerPos fileBlock).getD [fileBlock]
  let physBlock := fs.fileBlockToFsBlock inode fileBlock
  (if pos.length = 1 then []
    else fs.digAccesses (toUint (inode.block.getD (pos.headD 0) 0)) pos.tail.dropLast) ++
  if physBlock = 0 then [] else [.data physBlock]

/-- The accesses of a read. -/
def accesses (inode : Inode) (buf : List UInt8) (offset len : ℕ) : List Access :=
  (fs.readInodeVars inode buf offset len).looked.flatMap (fs.blockAccesses inode)

/-- A failed access is reported by a negative result. -/
def Reported (inode : Inode) (buf : List UInt8) (offset len : ℕ) : Prop :=
  (∃ access ∈ fs.accesses inode buf offset len, access.Fails fs) →
    (fs.ext2ReadInodeInto inode buf offset len).1 < 0

/-- What was read and what is left make up the length of the read. -/
def Counts (n : ℕ) (v : ReadVars) : Prop := v.bytesRead + v.len = n

variable {fs} {inode : Inode} {n : ℕ} {v : ReadVars}

theorem Counts.advance (h : Counts n v) (hn : n < 2 ^ 16) {count : ℕ} (hcount : count ≤ v.len)
    (bytes : List UInt8) : Counts n (v.advance bytes count) := by
  rw [Counts] at h ⊢
  simp only [ReadVars.advance]
  rw [toUint_of_lt (by omega)]
  omega

theorem Counts.readFirst (h : Counts n v) (hn : n < 2 ^ 16) (offset : ℕ) :
    Counts n (fs.readFirst inode offset v) := by
  rw [Ext2.readFirst]
  split_ifs
  · exact h.advance hn (min_le_left _ _) _
  · exact h

theorem Counts.readMiddle (hn : n < 2 ^ 16) (fuel : ℕ) :
    ∀ {v : ReadVars}, Counts n v → Counts n (fs.readMiddle inode fuel v) := by
  induction fuel with
  | zero => exact fun h => h
  | succ fuel ih =>
    intro v h
    rw [Ext2.readMiddle]
    split_ifs with hle
    · exact ih (h.advance hn hle _)
    · exact h

theorem Counts.readLast (h : Counts n v) (hn : n < 2 ^ 16) : (fs.readLast inode v).bytesRead = n := by
  rw [Counts] at h
  rw [Ext2.readLast]
  split_ifs with hpos
  · simp only [h]
    exact toUint_of_lt hn
  · omega

/-- **The result is the length of the read**, whatever happened on the way. -/
theorem bytesRead_readInodeVars (inode : Inode) (buf : List UInt8) (offset : ℕ) {len : ℕ}
    (hlen : len < 2 ^ 16) :
    (fs.readInodeVars inode buf offset len).bytesRead = fs.trimLen inode offset len := by
  have hn : fs.trimLen inode offset len < 2 ^ 16 := trimLen_lt offset hlen
  simp only [readInodeVars]
  split_ifs with h₀
  · exact h₀.symm
  · have hstart : Counts (fs.trimLen inode offset len)
        ⟨buf, 0, toUint (offset / fs.blockSize), fs.trimLen inode offset len, 0, []⟩ := Nat.zero_add _
    exact ((hstart.readFirst hn offset).readMiddle hn _).readLast hn

theorem result_neg_iff (inode : Inode) (buf : List UInt8) (offset : ℕ) {len : ℕ} (hlen : len < 2 ^ 16) :
    (fs.ext2ReadInodeInto inode buf offset len).1 < 0 ↔ 32768 ≤ fs.trimLen inode offset len := by
  have hn : fs.trimLen inode offset len < 2 ^ 16 := trimLen_lt offset hlen
  rw [ext2ReadInodeInto, bytesRead_readInodeVars inode buf offset hlen]
  constructor
  · intro hneg
    by_contra hlt
    exact int16_not_neg_of_lt (not_le.mp hlt) hneg
  · intro hle
    rw [Int16.lt_iff_toInt_lt, Int16.toInt_ofNat', show Int16.size = 2 ^ 16 from rfl, Int.bmod_def]
    split_ifs <;> simp <;> omega

end Ext2

/-- **When failures are reported.** For every inode, offset and length, a read reports its failures if and
only if it has none, or the length of the read, trimmed to the end of the file, is negative as an
`ssize_t`. -/
theorem ext2_read_errors_iff (fs : Ext2) (inode : Inode) (buf : List UInt8) (offset len : ℕ)
    (hlen : len < 2 ^ 16) :
    fs.Reported inode buf offset len ↔
      (∀ access ∈ fs.accesses inode buf offset len, ¬ access.Fails fs) ∨
        32768 ≤ fs.trimLen inode offset len := by
  rw [Ext2.Reported, Ext2.result_neg_iff inode buf offset hlen]
  constructor
  · intro h
    by_cases hfail : ∃ access ∈ fs.accesses inode buf offset len, access.Fails fs
    · exact Or.inr (h hfail)
    · exact Or.inl fun access hmem hf => hfail ⟨access, hmem, hf⟩
  · rintro (hnone | hle) ⟨access, hmem, hf⟩
    · exact absurd hf (hnone access hmem)
    · exact hle

/-- A file of ten bytes in block 20. -/
def tenBytes : Inode := ⟨0x8000, 10, [20, 0, 0, 0, 0, 0, 0, 0, 0, 0, 0, 0, 0, 0, 0]⟩

/-- On a device without errors the block of the file is read. -/
theorem ext2_read_errors_iff_direct :
    (100 : ℕ) < 2 ^ 16 ∧ (Ext2.serving 0 fun _ => 0).Reported tenBytes (List.replicate 100 0) 0 100 := by
  have haccesses : (Ext2.serving 0 fun _ => 0).accesses tenBytes (List.replicate 100 0) 0 100 =
      [.data 20] := by decide
  refine ⟨by norm_num, (ext2_read_errors_iff _ _ _ _ _ (by norm_num)).mpr (Or.inl ?_)⟩
  intro access hmem
  rw [haccesses, List.mem_singleton] at hmem
  subst hmem
  decide

/-- On a device that fails every read the result is 10 all the same. -/
theorem not_reported_direct :
    ¬ ({ Ext2.serving 0 (fun _ => 0) with blkRead := fun _ len => (errIo, List.replicate len 0) } :
      Ext2).Reported tenBytes (List.replicate 100 0) 0 100 := by
  intro h
  refine absurd (h ⟨.data 20, ?_, ?_⟩) ?_
  · decide
  · decide
  · decide

end I80k.Kernel

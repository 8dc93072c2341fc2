import I80k.Kernel.BlkdevTransfer

/-!
# A block device as a flat array

Reads and writes of bytes are those of a flat array, of the bytes of the range that are on the device. The
range is cut to the size of the device first. There the sum `offset + len` is a signed number of 32 bits,
and a range that ends past `2 ^ 31` is not cut; the transfer then fails where the device ends. Nor can a
driver return the size of a block of 32 KiB, which is a negative `int`.

## Main definitions

* `Blkdev.flatLen`: the number of bytes of a range that are on the device
* `Blkdev.ReadsFlat`, `Blkdev.WritesFlat`: a read, or a write, is the one of the flat array
* `Blkdev.Flat`: the ranges for which they are
* `ramDisk`: a disk in memory

## Main results

* `Blkdev.result_phases`: a transfer fails, or moves all the bytes that it is asked for
* `Blkdev.trimRange`, `Blkdev.trimRange_wrap`: what is left of a range
* `blk_flat_iff`: when a read, or a write, is the one of the flat array
-/

namespace I80k.Kernel

open FlatArray

namespace Blkdev

variable {σ : Type} {dev : Blkdev σ} {contents : σ → List UInt8}

/-- The number of bytes of the range that are on the device. -/
def flatLen (dev : Blkdev σ) (offset len : ℕ) : ℕ := min len (dev.blockSize * dev.blockCount - offset)

/-- `blk_read` returns the number of bytes on the device, and fills the buffer with them. -/
def ReadsFlat (dev : Blkdev σ) (contents : σ → List UInt8) (s : σ) (temp buf : List UInt8)
    (offset len : ℕ) : Prop :=
  let n := dev.flatLen offset len
  let r := dev.blkDevAdd.blkRead s (some temp) buf offset len
  r.1.toInt = n ∧ r.2.take n = slice (contents s) offset n

/-- `blk_write` returns the number of bytes on the device, and puts the buffer in their place. -/
def WritesFlat (dev : Blkdev σ) (contents : σ → List UInt8) (s : σ) (temp buf : List UInt8)
    (offset len : ℕ) : Prop :=
  let n := dev.flatLen offset len
  ∃ r, dev.blkDevAdd.blkWrite s (some temp) buf offset len = some r ∧
    r.1.toInt = n ∧ contents r.2 = splice (contents s) offset (buf.take n)

/-! ## Where a transfer fails -/

/-- A phase moves from the bytes that are left to those that are done. -/
def Keeps (phase : Transfer σ → Int16 × Transfer σ) : Prop :=
  ∀ t, ¬ (phase t).1 < 0 → (phase t).2.bytes + (phase t).2.len = t.bytes + t.len

/-- The last phase moves all that is left. -/
def Finishes (phase : Int16 → Transfer σ → Int16 × Transfer σ) : Prop :=
  ∀ err t, ¬ (phase err t).1 < 0 → (phase err t).2.bytes = t.bytes + t.len

theorem loadTemp_counts (t : Transfer σ) :
    (dev.loadTemp t).2.bytes = t.bytes ∧ (dev.loadTemp t).2.len = t.len := ⟨rfl, rfl⟩

theorem patchBlock_counts (pos : ℕ) (bytes : List UInt8) (t : Transfer σ) :
    (dev.patchBlock pos bytes t).2.bytes = t.bytes ∧ (dev.patchBlock pos bytes t).2.len = t.len := by
  rw [Blkdev.patchBlock, andThen]
  split_ifs
  · exact ⟨rfl, rfl⟩
  · exact ⟨rfl, rfl⟩

theorem keeps_readFirst (offset : ℕ) : Keeps (dev.readFirst offset) := by
  intro t h
  rw [readFirst] at h ⊢
  split_ifs at h ⊢ with hpart
  · rw [andThen_of_not_neg (not_neg_of_andThen h)]
    obtain ⟨hbytes, hlen⟩ := @loadTemp_counts σ dev t
    simp only [Transfer.advance]
    omega
  · rfl

theorem keeps_writeFirst (offset : ℕ) : Keeps (dev.writeFirst offset) := by
  intro t h
  rw [writeFirst] at h ⊢
  split_ifs at h ⊢ with hpart
  · rw [andThen_of_not_neg (not_neg_of_andThen h)]
    obtain ⟨hbytes, hlen⟩ := @patchBlock_counts σ dev (offset % dev.blockSize)
      (slice t.buf t.bytes (min (dev.blockSize - offset % dev.blockSize) t.len)) t
    simp only [Transfer.advance]
    omega
  · rfl

/-- The whole blocks are not more than what is left. -/
theorem moved_le (hsize : dev.blockSize = 2 ^ dev.blockShift) {err : Int16} {len : ℕ}
    (h : ¬ dev.checkCount err (len / 2 ^ dev.blockShift) < 0) :
    (dev.checkCount err (len / 2 ^ dev.blockShift)).toInt.toNat ≤ len := by
  rw [checkCount_not_neg h, toUint32, hsize]
  exact (Nat.mod_le _ _).trans (Nat.mul_div_le _ _)

theorem keeps_readMiddle (hsize : dev.blockSize = 2 ^ dev.blockShift) : Keeps dev.readMiddle := by
  intro t h
  rw [readMiddle] at h ⊢
  cases hread : dev.blkReadBlock t.state t.buf t.bytes t.block (toUint (t.len / 2 ^ dev.blockShift)) with
  | mk err buf =>
    simp only [hread] at h ⊢
    have hcount := not_neg_of_andThen h
    have hle := moved_le hsize hcount
    rw [andThen_of_not_neg hcount]
    simp only [Transfer.advance]
    omega

theorem keeps_writeMiddle (hsize : dev.blockSize = 2 ^ dev.blockShift) : Keeps dev.writeMiddle := by
  intro t h
  rw [writeMiddle] at h ⊢
  cases hwrite : dev.blkWriteBlock t.state (t.buf.drop t.bytes) t.block
      (toUint (t.len / 2 ^ dev.blockShift)) with
  | mk err state =>
    simp only [hwrite] at h ⊢
    have hcount := not_neg_of_andThen h
    have hle := moved_le hsize hcount
    rw [andThen_of_not_neg hcount]
    simp only [Transfer.advance]
    omega

theorem finishes_readLast : Finishes dev.readLast := by
  intro err t h
  rw [readLast] at h ⊢
  split_ifs at h ⊢ with hpos
  · rw [andThen_of_not_neg (not_neg_of_andThen h)]
    rfl
  · dsimp only
    omega

theorem finishes_writeLast : Finishes dev.writeLast := by
  intro err t h
  rw [writeLast] at h ⊢
  split_ifs at h ⊢ with hpos
  · rw [andThen_of_not_neg (not_neg_of_andThen h)]
    obtain ⟨hbytes, hlen⟩ := @patchBlock_counts σ dev 0 (slice t.buf t.bytes t.len) t
    dsimp only
    omega
  · dsimp only
    omega

/-- A transfer fails, or moves all the bytes that it is asked for. -/
theorem result_phases {first middle : Transfer σ → Int16 × Transfer σ}
    {last : Int16 → Transfer σ → Int16 × Transfer σ} (hfirst : Keeps first) (hmiddle : Keeps middle)
    (hlast : Finishes last) (t : Transfer σ) :
    result (phases first middle last t) < 0 ∨
      result (phases first middle last t) = Int16.ofNat (t.bytes + t.len) := by
  rw [result]
  split_ifs with h
  · right
    have hall : ¬ (phases first middle last t).1 < 0 := Int16.not_lt.mpr h
    -- No phase has failed, and each has moved its share of the bytes.
    have hmid := not_neg_of_andThen hall
    have hfst := not_neg_of_andThen hmid
    have hsum := hfirst t hfst
    rw [andThen_of_not_neg hfst] at hmid
    have hsum' := hmiddle _ hmid
    rw [phases, andThen_of_not_neg hfst, andThen_of_not_neg hmid] at hall ⊢
    rw [hlast _ _ hall, hsum', hsum]
  · exact Or.inl (Int16.not_le.mp h)

theorem defaultRead_result (hsize : dev.blockSize = 2 ^ dev.blockShift) (s : σ) (temp buf : List UInt8)
    (offset len : ℕ) :
    (dev.blkDefaultRead s (some temp) buf offset len).1 < 0 ∨
      (dev.blkDefaultRead s (some temp) buf offset len).1 = Int16.ofNat len := by
  have hlen : (dev.start s temp buf offset len).bytes + (dev.start s temp buf offset len).len = len :=
    Nat.zero_add len
  simp only [blkDefaultRead]
  rcases result_phases (keeps_readFirst offset) (keeps_readMiddle hsize) finishes_readLast
    (dev.start s temp buf offset len) with hres | hres
  · exact Or.inl hres
  · rw [hlen] at hres
    exact Or.inr hres

theorem defaultWrite_result (hsize : dev.blockSize = 2 ^ dev.blockShift) (s : σ) (temp buf : List UInt8)
    (offset len : ℕ) :
    (dev.blkDefaultWrite s (some temp) buf offset len).1 < 0 ∨
      (dev.blkDefaultWrite s (some temp) buf offset len).1 = Int16.ofNat len := by
  have hlen : (dev.start s temp buf offset len).bytes + (dev.start s temp buf offset len).len = len :=
    Nat.zero_add len
  simp only [blkDefaultWrite]
  rcases result_phases (keeps_writeFirst offset) (keeps_writeMiddle hsize) finishes_writeLast
    (dev.start s temp buf offset len) with hres | hres
  · exact Or.inl hres
  · rw [hlen] at hres
    exact Or.inr hres

theorem result_of_neg {r : Int16 × Transfer σ} (h : r.1 < 0) : result r = r.1 :=
  if_neg (Int16.not_le.mpr h)

/-- The driver reads every block of the device, and returns the number of bytes, as an `int`. -/
structure ReadsCounted (dev : Blkdev σ) : Prop where
  size : dev.blockSize = 2 ^ dev.blockShift
  word : dev.blockSize < 2 ^ 16
  count : dev.blockCount < 2 ^ 32
  reads : ∃ readBlock, dev.readBlock = some readBlock ∧
    ∀ s block count, block + count ≤ dev.blockCount → dev.blockSize * count < 2 ^ 16 →
      (readBlock s block count).1 = Int16.ofNat (dev.blockSize * count)
  writable : ∃ writeBlock, dev.writeBlock = some writeBlock

theorem Backs.readsCounted (h : dev.Backs contents) : dev.ReadsCounted := by
  have hpos := h.blockSize_pos
  obtain ⟨readBlock, hread, hspec⟩ := h.reads
  obtain ⟨writeBlock, hwrite, -⟩ := h.writes
  refine ⟨h.size, h.word, h.blockCount_lt.trans (by norm_num), ⟨readBlock, hread, ?_⟩, writeBlock, hwrite⟩
  intro s block count hrange hlt
  rw [hspec s block count hrange ((Nat.le_mul_of_pos_left _ hpos).trans_lt hlt)]

theorem ReadsCounted.blockSize_pos (h : dev.ReadsCounted) : 0 < dev.blockSize := by
  rw [h.size]
  exact Nat.two_pow_pos _

theorem ReadsCounted.blockSize_eq (h : dev.ReadsCounted) (hshift : ¬ dev.blockShift ≤ 14) :
    dev.blockSize = 2 ^ 15 := by
  have hword := h.word
  rw [h.size] at hword ⊢
  have hlt := (Nat.pow_lt_pow_iff_right (by norm_num)).mp hword
  rw [show dev.blockShift = 15 by omega]

/-- The result of reading blocks that are on the device. -/
theorem ReadsCounted.readBlock (h : dev.ReadsCounted) (s : σ) (buf : List UInt8) (pos : ℕ) {block count : ℕ}
    (hrange : count = 0 ∨ block + count ≤ dev.blockCount) (hlt : dev.blockSize * count < 2 ^ 16) :
    (dev.blkReadBlock s buf pos block count).1 = Int16.ofNat (dev.blockSize * count) := by
  obtain ⟨readBlock, hread, hspec⟩ := h.reads
  simp only [blkReadBlock, hread, blkBlockTrimRange_of_le h.count hrange]
  by_cases hzero : count = 0
  · subst hzero
    simp
  · rw [if_neg hzero]
    exact hspec s block count (hrange.resolve_left hzero) hlt

theorem ReadsCounted.loadTemp (h : dev.ReadsCounted) {t : Transfer σ} (hblock : t.block < dev.blockCount) :
    (dev.loadTemp t).1 = dev.checkCount (Int16.ofNat (dev.blockSize * 1)) 1 := by
  have hword := h.word
  simp only [Blkdev.loadTemp]
  rw [h.readBlock t.state t.temp 0 (Or.inr hblock) (by omega)]

/-- The size of a block of 32 KiB is a negative `int`. -/
theorem ReadsCounted.loadTemp_neg (h : dev.ReadsCounted) (hbig : dev.blockSize = 2 ^ 15) {t : Transfer σ}
    (hblock : t.block < dev.blockCount) : (dev.loadTemp t).1 < 0 := by
  have hneg : Int16.ofNat (dev.blockSize * 1) < 0 := by
    rw [hbig]
    decide
  rw [h.loadTemp hblock, checkCount, if_pos hneg]
  exact hneg

theorem ReadsCounted.patchBlock_neg (h : dev.ReadsCounted) (hbig : dev.blockSize = 2 ^ 15) {t : Transfer σ}
    (hblock : t.block < dev.blockCount) (pos : ℕ) (bytes : List UInt8) :
    (dev.patchBlock pos bytes t).1 < 0 := by
  have hneg := h.loadTemp_neg hbig hblock
  rw [Blkdev.patchBlock, andThen_of_neg hneg]
  exact hneg

theorem ReadsCounted.readLast_neg (h : dev.ReadsCounted) (hbig : dev.blockSize = 2 ^ 15) {t : Transfer σ}
    (hblock : t.block < dev.blockCount) (hlen : 0 < t.len) (err : Int16) : (dev.readLast err t).1 < 0 := by
  have hload := h.loadTemp_neg hbig hblock
  rw [readLast, if_pos hlen, andThen_of_neg hload]
  exact hload

theorem ReadsCounted.writeLast_neg (h : dev.ReadsCounted) (hbig : dev.blockSize = 2 ^ 15) {t : Transfer σ}
    (hblock : t.block < dev.blockCount) (hlen : 0 < t.len) (err : Int16) : (dev.writeLast err t).1 < 0 := by
  have hpatch := h.patchBlock_neg hbig hblock 0 (slice t.buf t.bytes t.len)
  rw [writeLast, if_pos hlen, andThen_of_neg hpatch]
  exact hpatch

/-- Less than a block has no middle. -/
theorem ReadsCounted.readMiddle_short (h : dev.ReadsCounted) {t : Transfer σ} (hlen : t.len < dev.blockSize) :
    dev.readMiddle t = (0, t.advance 0 0) := by
  have hzero : t.len / 2 ^ dev.blockShift = 0 := Nat.div_eq_of_lt (h.size ▸ hlen)
  obtain ⟨readBlock, hread, -⟩ := h.reads
  have hnone : dev.blkReadBlock t.state t.buf t.bytes t.block 0 = (0, t.buf) := by
    simp [blkReadBlock, hread, blkBlockTrimRange_of_le h.count (Or.inl rfl)]
  have hcheck := @checkCount_of_lt σ dev 0 (by simp)
  rw [Nat.mul_zero] at hcheck
  rw [readMiddle, hzero]
  dsimp only
  rw [show toUint 0 = 0 from rfl, hnone]
  exact congrArg (fun err => andThen (err, t) _) hcheck

theorem ReadsCounted.writeMiddle_short (h : dev.ReadsCounted) {t : Transfer σ} (hlen : t.len < dev.blockSize) :
    dev.writeMiddle t = (0, t.advance 0 0) := by
  have hzero : t.len / 2 ^ dev.blockShift = 0 := Nat.div_eq_of_lt (h.size ▸ hlen)
  obtain ⟨writeBlock, hwrite⟩ := h.writable
  have hnone : dev.blkWriteBlock t.state (t.buf.drop t.bytes) t.block 0 = (0, t.state) := by
    simp [blkWriteBlock, hwrite, blkBlockTrimRange_of_le h.count (Or.inl rfl)]
  have hcheck := @checkCount_of_lt σ dev 0 (by simp)
  rw [Nat.mul_zero] at hcheck
  rw [writeMiddle, hzero]
  dsimp only
  rw [show toUint 0 = 0 from rfl, hnone]
  exact congrArg (fun err => andThen (err, t) _) hcheck

theorem phases_neg_of_first {first middle : Transfer σ → Int16 × Transfer σ}
    {last : Int16 → Transfer σ → Int16 × Transfer σ} {t : Transfer σ} (h : (first t).1 < 0) :
    (phases first middle last t).1 < 0 := by
  rw [phases, andThen_of_neg h, andThen_of_neg h]
  exact h

theorem phases_neg_of_last {first middle : Transfer σ → Int16 × Transfer σ}
    {last : Int16 → Transfer σ → Int16 × Transfer σ} {t t' : Transfer σ} (hfirst : first t = (0, t))
    (hmiddle : middle t = (0, t')) (h : (last 0 t').1 < 0) : (phases first middle last t).1 < 0 := by
  have hzero : ∀ (t : Transfer σ) next, andThen (0, t) next = next 0 t :=
    fun t next => if_neg (by decide : ¬ (0 : Int16) < 0)
  rw [phases, hfirst, hzero, hmiddle, hzero]
  exact h

/-- The first block of a transfer is on the device. -/
theorem ReadsCounted.start_lt (h : dev.ReadsCounted) {offset total : ℕ} (hpos : 0 < total)
    (hrange : offset + total ≤ dev.blockSize * dev.blockCount) (s : σ) (temp buf : List UInt8) :
    (dev.start s temp buf offset total).block = offset / dev.blockSize ∧
      offset / dev.blockSize < dev.blockCount := by
  have hcount := h.count
  have hlt : offset / dev.blockSize < dev.blockCount := Nat.div_lt_of_lt_mul (by omega)
  exact ⟨toUint32_of_lt (by omega), hlt⟩

theorem ReadsCounted.advance_zero_lt (h : dev.ReadsCounted) {t : Transfer σ} (hlt : t.block < dev.blockCount) :
    (t.advance 0 0).block < dev.blockCount := by
  have hcount := h.count
  simp only [Transfer.advance, Nat.add_zero]
  rwa [toUint32_of_lt (by omega)]

/-- With blocks of 32 KiB a read of less than a block fails. -/
theorem ReadsCounted.defaultRead_neg (h : dev.ReadsCounted) (hbig : dev.blockSize = 2 ^ 15) {offset total : ℕ}
    (hpos : 0 < total) (hlen : total < 2 ^ 15) (hrange : offset + total ≤ dev.blockSize * dev.blockCount)
    (s : σ) (temp buf : List UInt8) : (dev.blkDefaultRead s (some temp) buf offset total).1 < 0 := by
  obtain ⟨hstart, hlt⟩ := h.start_lt hpos hrange s temp buf
  rw [← hstart] at hlt
  have hleft : 0 < (dev.start s temp buf offset total).len := hpos
  have hshort : (dev.start s temp buf offset total).len < dev.blockSize := hbig ▸ hlen
  generalize ht : dev.start s temp buf offset total = t at hlt hleft hshort
  have hneg : (phases (dev.readFirst offset) dev.readMiddle dev.readLast t).1 < 0 := by
    -- The first phase loads a block, or the last one does.
    by_cases hpart : offset % dev.blockSize ≠ 0
    · refine phases_neg_of_first ?_
      have hload := h.loadTemp_neg hbig hlt
      rw [Blkdev.readFirst, if_pos hpart, andThen_of_neg hload]
      exact hload
    · have hfirst : dev.readFirst offset t = (0, t) := by rw [Blkdev.readFirst, if_neg hpart]
      exact phases_neg_of_last hfirst (h.readMiddle_short hshort)
        (h.readLast_neg hbig (h.advance_zero_lt hlt) hleft 0)
  simp only [blkDefaultRead, ht]
  rw [result_of_neg hneg]
  exact hneg

/-- And so does a write. -/
theorem ReadsCounted.defaultWrite_neg (h : dev.ReadsCounted) (hbig : dev.blockSize = 2 ^ 15) {offset total : ℕ}
    (hpos : 0 < total) (hlen : total < 2 ^ 15) (hrange : offset + total ≤ dev.blockSize * dev.blockCount)
    (s : σ) (temp buf : List UInt8) : (dev.blkDefaultWrite s (some temp) buf offset total).1 < 0 := by
  obtain ⟨hstart, hlt⟩ := h.start_lt hpos hrange s temp buf
  rw [← hstart] at hlt
  have hleft : 0 < (dev.start s temp buf offset total).len := hpos
  have hshort : (dev.start s temp buf offset total).len < dev.blockSize := hbig ▸ hlen
  generalize ht : dev.start s temp buf offset total = t at hlt hleft hshort
  have hneg : (phases (dev.writeFirst offset) dev.writeMiddle dev.writeLast t).1 < 0 := by
    -- As for a read: the block is loaded to be patched.
    by_cases hpart : offset % dev.blockSize ≠ 0
    · refine phases_neg_of_first ?_
      have hpatch := h.patchBlock_neg hbig hlt (offset % dev.blockSize)
        (slice t.buf t.bytes (min (dev.blockSize - offset % dev.blockSize) t.len))
      simp only [Blkdev.writeFirst, if_pos hpart]
      rw [andThen_of_neg hpatch]
      exact hpatch
    · have hfirst : dev.writeFirst offset t = (0, t) := by rw [Blkdev.writeFirst, if_neg hpart]
      exact phases_neg_of_last hfirst (h.writeMiddle_short hshort)
        (h.writeLast_neg hbig (h.advance_zero_lt hlt) hleft 0)
  simp only [blkDefaultWrite, ht]
  rw [result_of_neg hneg]
  exact hneg

/-! ## The range on the device -/

theorem toOff_total (htotal : dev.blockSize * dev.blockCount < 2 ^ 31) :
    toOff (toUint32 (dev.blockSize * dev.blockCount)) = ((dev.blockSize * dev.blockCount : ℕ) : ℤ) := by
  rw [toUint32_of_lt (by omega), toOff_of_lt htotal]

/-- A range is cut to the bytes on the device, unless it ends past `2 ^ 31`. -/
theorem trimRange (htotal : dev.blockSize * dev.blockCount < 2 ^ 31) {offset len : ℕ} (hlen : len < 2 ^ 16)
    (hsum : dev.flatLen offset len = 0 ∨ offset + len < 2 ^ 31) :
    dev.blkTrimRange offset len = dev.flatLen offset len := by
  rw [blkTrimRange, flatLen] at *
  simp only [toOff_total htotal]
  have hle : ((dev.blockSize * dev.blockCount : ℕ) : ℤ) ≤ offset ↔ dev.blockSize * dev.blockCount ≤ offset :=
    Nat.cast_le
  -- Past the end, or nothing to do: both are 0. Else the sum is the one of the integers.
  by_cases hempty : dev.blockSize * dev.blockCount ≤ offset ∨ len = 0
  · rcases hempty with hpast | hzero
    · rw [if_pos (hle.mpr hpast)]
      omega
    · rw [if_pos hzero]
      split_ifs <;> omega
  · obtain ⟨hon, hpos⟩ := not_or.mp hempty
    have hsum' : offset + len < 2 ^ 31 := hsum.resolve_left (by omega)
    rw [if_neg (mt hle.mp hon), if_neg hpos, toOff_of_lt hsum']
    split_ifs with hcut
    · rw [toUint]
      omega
    · omega

/-- A range that ends past `2 ^ 31` is not cut. -/
theorem trimRange_wrap (htotal : dev.blockSize * dev.blockCount < 2 ^ 31) {offset len : ℕ}
    (hoffset : offset < 2 ^ 31) (hlen : len < 2 ^ 16) (hsome : dev.flatLen offset len ≠ 0)
    (hsum : 2 ^ 31 ≤ offset + len) :
    dev.blkTrimRange offset len = len ∧ dev.flatLen offset len < len := by
  rw [blkTrimRange, flatLen] at *
  simp only [toOff_total htotal]
  have hcut : ¬ ((dev.blockSize * dev.blockCount : ℕ) : ℤ) < toOff (offset + len) := by
    rw [toOff_of_ge hsum (by omega)]
    omega
  refine ⟨?_, by omega⟩
  rw [if_neg (by omega), if_neg (by omega), if_neg hcut]

/-! ## Reads and writes of the flat array -/

theorem Backs.blkRead_eq (h : dev.Backs contents) (s : σ) (temp : Option (List UInt8)) (buf : List UInt8)
    (offset len : ℕ) : dev.blkDevAdd.blkRead s temp buf offset len =
      if dev.blkTrimRange offset len = 0 then (0, buf)
      else dev.blkDefaultRead s temp buf offset (dev.blkTrimRange offset len) := by
  simp only [blkRead, blkDevAdd, h.default.1, Option.getD_none]
  rfl

theorem Backs.blkWrite_eq (h : dev.Backs contents) (s : σ) (temp : Option (List UInt8)) (buf : List UInt8)
    (offset len : ℕ) : dev.blkDevAdd.blkWrite s temp buf offset len =
      if dev.blkTrimRange offset len = 0 then some (0, s)
      else some (dev.blkDefaultWrite s temp buf offset (dev.blkTrimRange offset len)) := by
  simp only [blkWrite, blkDevAdd, h.default.2, Option.getD_none]
  rfl

/-- The ranges that are read and written as those of the flat array. -/
def Flat (dev : Blkdev σ) (offset len : ℕ) : Prop :=
  dev.flatLen offset len = 0 ∨ offset + len < 2 ^ 31 ∧ dev.blockShift ≤ 14

/-- What is on the device, is on the device. -/
theorem flatLen_range {offset len : ℕ} (h : dev.flatLen offset len ≠ 0) :
    offset + dev.flatLen offset len ≤ dev.blockSize * dev.blockCount := by
  rw [flatLen] at *
  omega

theorem Backs.movable (h : dev.Backs contents) {offset len : ℕ} (hsome : dev.flatLen offset len ≠ 0)
    (hn : dev.flatLen offset len < 2 ^ 15) (hshift : dev.blockShift ≤ 14) :
    dev.Movable offset (dev.flatLen offset len) := by
  refine ⟨?_, flatLen_range hsome, hn⟩
  rw [h.size]
  exact Nat.pow_lt_pow_right (by norm_num) (by omega)

/-- A transfer of another range does not return the number of bytes on the device. -/
theorem Backs.not_flat (h : dev.Backs contents) {offset len : ℕ} (hoffset : offset < 2 ^ 31)
    (hlen : len < 2 ^ 16) (hn : dev.flatLen offset len < 2 ^ 15) (hflat : ¬ dev.Flat offset len) (s : σ)
    (temp buf : List UInt8) :
    dev.blkTrimRange offset len ≠ 0 ∧
      (dev.blkDefaultRead s (some temp) buf offset (dev.blkTrimRange offset len)).1.toInt ≠
        dev.flatLen offset len ∧
      (dev.blkDefaultWrite s (some temp) buf offset (dev.blkTrimRange offset len)).1.toInt ≠
        dev.flatLen offset len := by
  obtain ⟨hsome, hcond⟩ := not_or.mp hflat
  have hneg : ∀ {x : Int16}, x < 0 → x.toInt ≠ dev.flatLen offset len := by
    intro x hx
    have := int16_toInt_neg hx
    omega
  by_cases hsum : offset + len < 2 ^ 31
  · -- The blocks are too big for the results of the driver.
    have hbig := h.readsCounted.blockSize_eq fun hshift => hcond ⟨hsum, hshift⟩
    have hpos : 0 < dev.flatLen offset len := by omega
    rw [trimRange h.total hlen (Or.inr hsum)]
    exact ⟨hsome, hneg (h.readsCounted.defaultRead_neg hbig hpos hn (flatLen_range hsome) s temp buf),
      hneg (h.readsCounted.defaultWrite_neg hbig hpos hn (flatLen_range hsome) s temp buf)⟩
  · -- The range is not cut.
    obtain ⟨htrim, hlt⟩ := trimRange_wrap h.total hoffset hlen hsome (by omega)
    have hother : (Int16.ofNat len).toInt ≠ dev.flatLen offset len :=
      int16_toInt_ne hn (by omega) (by omega)
    rw [htrim]
    refine ⟨by omega, ?_, ?_⟩
    · rcases defaultRead_result h.size s temp buf offset len with hres | hres
      · exact hneg hres
      · rw [hres]
        exact hother
    · rcases defaultWrite_result h.size s temp buf offset len with hres | hres
      · exact hneg hres
      · rw [hres]
        exact hother

theorem Backs.readsFlat_iff (h : dev.Backs contents) (s : σ) {temp buf : List UInt8} {offset len : ℕ}
    (htemp : temp.length = dev.blockSize) (hoffset : offset < 2 ^ 31) (hlen : len < 2 ^ 16)
    (hn : dev.flatLen offset len < 2 ^ 15) :
    dev.ReadsFlat contents s temp buf offset len ↔ dev.Flat offset len := by
  constructor
  · intro hreads
    by_contra hflat
    obtain ⟨htrim, hread, -⟩ := h.not_flat hoffset hlen hn hflat s temp buf
    rw [ReadsFlat, h.blkRead_eq, if_neg htrim] at hreads
    exact hread hreads.1
  · intro hflat
    rw [ReadsFlat, h.blkRead_eq, trimRange h.total hlen (hflat.imp id And.left)]
    -- Nothing to read, or a transfer of fewer than `2 ^ 15` bytes, that succeeds.
    by_cases hzero : dev.flatLen offset len = 0
    · rw [if_pos hzero, hzero]
      simp
    · have hm := h.movable hzero hn (hflat.resolve_left hzero).2
      have hslice : (slice (contents s) offset (dev.flatLen offset len)).length =
          dev.flatLen offset len := by
        refine length_slice ?_
        rw [h.length]
        exact flatLen_range hzero
      rw [if_neg hzero, h.defaultRead hm s buf htemp]
      refine ⟨int16_toInt_of_lt hn, ?_⟩
      have htake := @take_splice _ buf (slice (contents s) offset (dev.flatLen offset len))
      rwa [hslice] at htake

theorem Backs.writesFlat_iff (h : dev.Backs contents) (s : σ) {temp buf : List UInt8} {offset len : ℕ}
    (htemp : temp.length = dev.blockSize) (hoffset : offset < 2 ^ 31) (hlen : len < 2 ^ 16)
    (hn : dev.flatLen offset len < 2 ^ 15) (hbuf : dev.flatLen offset len ≤ buf.length) :
    dev.WritesFlat contents s temp buf offset len ↔ dev.Flat offset len := by
  constructor
  · rintro ⟨r, hwrite, herr, -⟩
    -- A transfer that is too long for the trim, or of blocks that are too large, fails.
    by_contra hflat
    obtain ⟨htrim, -, hwrite'⟩ := h.not_flat hoffset hlen hn hflat s temp buf
    rw [h.blkWrite_eq, if_neg htrim, Option.some.injEq] at hwrite
    rw [hwrite] at hwrite'
    exact hwrite' herr
  · intro hflat
    rw [WritesFlat, h.blkWrite_eq, trimRange h.total hlen (hflat.imp id And.left)]
    by_cases hzero : dev.flatLen offset len = 0
    · rw [if_pos hzero, hzero]
      exact ⟨(0, s), rfl, by simp, by simp⟩
    · have hm := h.movable hzero hn (hflat.resolve_left hzero).2
      obtain ⟨hres, hcontents⟩ := h.defaultWrite hm s htemp hbuf
      rw [if_neg hzero]
      refine ⟨_, rfl, ?_, hcontents⟩
      rw [hres]
      exact int16_toInt_of_lt hn

end Blkdev

/-- **Byte ranges of a block device, exactly.** Above a driver that moves the blocks of an array, a read
and a write of a range move the bytes of the array, if and only if none of them is on the device, or the
range ends below `2 ^ 31` and the size of a block has 15 bits. -/
theorem blk_flat_iff {σ : Type} (dev : Blkdev σ) (contents : σ → List UInt8) (h : dev.Backs contents)
    (s : σ) (temp buf : List UInt8) (offset len : ℕ) (htemp : temp.length = dev.blockSize)
    (hoffset : offset < 2 ^ 31) (hlen : len < 2 ^ 16) (hn : dev.flatLen offset len ≤ 32767)
    (hbuf : dev.flatLen offset len ≤ buf.length) :
    (dev.ReadsFlat contents s temp buf offset len ↔
      dev.flatLen offset len = 0 ∨ offset + len < 2 ^ 31 ∧ dev.blockShift ≤ 14) ∧
    (dev.WritesFlat contents s temp buf offset len ↔
      dev.flatLen offset len = 0 ∨ offset + len < 2 ^ 31 ∧ dev.blockShift ≤ 14) :=
  ⟨h.readsFlat_iff s htemp hoffset hlen (by omega),
    h.writesFlat_iff s htemp hoffset hlen (by omega) hbuf⟩

/-! ## A disk in memory -/

/-- The bytes of a disk of `count` blocks. -/
structure RamBytes (shift count : ℕ) where
  bytes : List UInt8
  length : bytes.length = 2 ^ shift * count

/-- Writes to a disk in memory. -/
def RamBytes.write {shift count : ℕ} (s : RamBytes shift count) (i : ℕ) (bytes : List UInt8) :
    RamBytes shift count :=
  if h : i + bytes.length ≤ s.bytes.length then ⟨splice s.bytes i bytes, (length_splice h).trans s.length⟩
  else s

theorem RamBytes.bytes_write {shift count : ℕ} {s : RamBytes shift count} {i : ℕ} {bytes : List UInt8}
    (h : i + bytes.length ≤ s.bytes.length) : (s.write i bytes).bytes = splice s.bytes i bytes := by
  simp [RamBytes.write, h]

/-- A disk in memory. -/
def ramDisk (shift count : ℕ) : Blkdev (RamBytes shift count) where
  blockSize := 2 ^ shift
  blockShift := shift
  blockCount := count
  readBlock := some fun s block n => (Int16.ofNat (2 ^ shift * n), slice s.bytes (block * 2 ^ shift) (2 ^ shift * n))
  writeBlock := some fun s buf block n =>
    (Int16.ofNat (2 ^ shift * n), s.write (block * 2 ^ shift) (buf.take (2 ^ shift * n)))
  read := none
  write := none

theorem backs_ramDisk {shift count : ℕ} (hshift : shift ≤ 15) (htotal : 2 ^ shift * count < 2 ^ 31) :
    (ramDisk shift count).Backs RamBytes.bytes where
  size := rfl
  word := Nat.pow_lt_pow_right (by norm_num) (by omega)
  total := htotal
  length s := s.length
  reads := ⟨_, rfl, fun s block n _ _ => rfl⟩
  writes := by
    refine ⟨_, rfl, fun s buf block n hrange _ hbuf => ⟨rfl, ?_⟩⟩
    have hlen : (buf.take (2 ^ shift * n)).length = 2 ^ shift * n := List.length_take_of_le hbuf
    have hfits : block * 2 ^ shift + (buf.take (2 ^ shift * n)).length ≤ s.bytes.length := by
      rw [hlen, s.length, Nat.mul_comm block, ← Nat.mul_add]
      exact Nat.mul_le_mul_left _ hrange
    exact RamBytes.bytes_write hfits
  default := ⟨rfl, rfl⟩

/-- Five bytes in the middle of the blocks of a small disk, from one block into the next. -/
theorem blk_flat_ramDisk :
    ((ramDisk 4 4).ReadsFlat RamBytes.bytes ⟨List.replicate 64 0, rfl⟩ (List.replicate 16 0) [1, 2, 3, 4, 5] 14 5 ↔
      (ramDisk 4 4).flatLen 14 5 = 0 ∨ 14 + 5 < 2 ^ 31 ∧ (ramDisk 4 4).blockShift ≤ 14) ∧
    ((ramDisk 4 4).WritesFlat RamBytes.bytes ⟨List.replicate 64 0, rfl⟩ (List.replicate 16 0) [1, 2, 3, 4, 5] 14 5 ↔
      (ramDisk 4 4).flatLen 14 5 = 0 ∨ 14 + 5 < 2 ^ 31 ∧ (ramDisk 4 4).blockShift ≤ 14) :=
  blk_flat_iff (ramDisk 4 4) RamBytes.bytes (backs_ramDisk (by norm_num) (by norm_num))
    ⟨List.replicate 64 0, rfl⟩ (List.replicate 16 0) [1, 2, 3, 4, 5] 14 5 (by decide) (by norm_num)
    (by norm_num) (by decide) (by decide)

/-- On a disk of 512 bytes less than 2 GiB, with one byte left to read: the sum of the offset and the
length wraps around, the range is not cut, and the read fails. -/
theorem not_readsFlat_wrap :
    (ramDisk 9 4194303).Backs RamBytes.bytes ∧ (ramDisk 9 4194303).flatLen 2147483135 65535 = 1 ∧
      ((ramDisk 9 4194303).blkDevAdd.blkRead ⟨List.replicate (2 ^ 9 * 4194303) 0, List.length_replicate⟩
        (some (List.replicate 512 0)) (List.replicate 65535 0) 2147483135 65535).1 = errIo ∧
      ¬ (ramDisk 9 4194303).ReadsFlat RamBytes.bytes
        ⟨List.replicate (2 ^ 9 * 4194303) 0, List.length_replicate⟩ (List.replicate 512 0)
        (List.replicate 65535 0) 2147483135 65535 := by
  have hback : (ramDisk 9 4194303).Backs RamBytes.bytes := backs_ramDisk (by norm_num) (by norm_num)
  have hone : (ramDisk 9 4194303).flatLen 2147483135 65535 = 1 := by decide
  have hread : ((ramDisk 9 4194303).blkDevAdd.blkRead
      ⟨List.replicate (2 ^ 9 * 4194303) 0, List.length_replicate⟩
      (some (List.replicate 512 0)) (List.replicate 65535 0) 2147483135 65535).1 = errIo := by
    decide
  refine ⟨hback, hone, hread, fun h => ?_⟩
  have herr := h.1
  rw [hread, hone] at herr
  exact absurd herr (by decide)

end I80k.Kernel

import I80k.Kernel.BlkdevFlat
import I80k.Kernel.Cf20Queue
import I80k.Kernel.Ext2.ReadInode

/-!
# The results of transfers

A transfer that succeeds returns its number of bytes, through the `int` or `ssize_t` of 16 bits of each
layer: the driver of the card, the block devices, and the reads of ext2. The layers above take a negative
result for an error. This module finds the transfers whose number of bytes is what the caller gets: at each
layer they are those of fewer than 32768 bytes, and for the block devices also the size of a block has to be
less than that.

## Main definitions

* `Cf20.serve`, `Cf20.cf20BlockServed`: the sectors of a request, and a call of `cf20_read_block`
* `Cf20.dataBytes`: the number of bytes that went through the data port
* `Blkdev.MovesCounted`: a driver that moves every block, and returns the number of bytes
* `Ext2.Transfer.moved`: the number of bytes that a read of an inode has copied

## Main results

* `Cf20.blockServed_iff`, `Blkdev.MovesCounted.defaultRead_iff`, `Blkdev.MovesCounted.defaultWrite_iff`,
  `Ext2.readInode_count_iff`: the results, layer by layer
* `transfer_count_iff`: the results of the four functions
-/

namespace I80k.Kernel

open FlatArray

/-- An `int` is less than 32768. -/
theorem int16_toInt_ofNat_iff {m n : ℕ} (h : m = n ∨ 2 ^ 15 ≤ n) :
    (Int16.ofNat m).toInt = n ↔ n < 2 ^ 15 := by
  constructor
  · intro heq
    have hmax := Int16.toInt_lt (Int16.ofNat m)
    omega
  · intro hlt
    obtain rfl : m = n := by omega
    exact int16_toInt_of_lt hlt

/-! ## The card -/

namespace Cf20

/-- The handler moves `n` sectors of a request. -/
def serve : ℕ → Cf20 → BioRequest → Cf20 × BioRequest
  | 0, s, ioReq => (s, ioReq)
  | n + 1, s, ioReq => serve n (s.handleSector ioReq).1 (s.handleSector ioReq).2

/-- The end of `cf20_read_block` and `cf20_write_block`, for `count` blocks, after the task was woken up. -/
def cf20BlockEnd (count : ℕ) (ioReq : BioRequest) : Int16 :=
  Int16.ofNat (toUint (toUint (count + (2 ^ 16 - ioReq.count)) * sectorSz))

/-- A call of `cf20_read_block` or `cf20_write_block` whose sectors are all moved: the result, and the driver
when the task is woken up. -/
def cf20BlockServed (s : Cf20) (dir : Direction) (block count buf : ℕ) : Int16 × Cf20 :=
  let r := serve count s ⟨dir.sector, block, count, buf⟩
  (cf20BlockEnd count r.2, r.1)

/-- The number of bytes that went through the data port. -/
def dataBytes (s : Cf20) : ℕ := s.trace.countP fun | .data _ _ _ => true | _ => false

theorem dataBytes_sectorLoop (dir : Direction) (n : ℕ) : ∀ (buf : ℕ) (s : Cf20),
    (sectorLoop dir n buf s).dataBytes = s.dataBytes + n := by
  induction n with
  | zero => exact fun _ _ => rfl
  | succ n ih =>
    intro buf s
    rw [sectorLoop, ih]
    have hone : (s.dataByte dir buf).dataBytes = s.dataBytes + 1 := by
      rw [dataBytes, dataByte, log, List.countP_append]
      rfl
    omega

/-- A request that is served to its end has no sectors left, and its bytes went through the data port. -/
theorem serve_eq {dir : Direction} (n : ℕ) : ∀ {s : Cf20} {ioReq : BioRequest}, ioReq.count = n →
    (n ≠ 0 → ioReq.state = dir.sector) → n ≤ 256 →
      (serve n s ioReq).2.count = 0 ∧ (serve n s ioReq).1.dataBytes = s.dataBytes + n * sectorSz := by
  induction n with
  | zero => exact fun hcount _ _ => ⟨hcount, (Nat.add_zero _).symm⟩
  | succ n ih =>
    intro s ioReq hcount hstate hle
    have hsector := @handleSector_eq s ioReq dir (hstate (by omega)) (by omega) (by omega)
    have hnext : n ≠ 0 → (BioRequest.advance ioReq).state = dir.sector := by
      intro hn
      rw [BioRequest.advance, if_neg (by omega), hstate (by omega)]
    obtain ⟨hzero, hbytes⟩ := @ih (sectorLoop dir sectorSz ioReq.buf s) (BioRequest.advance ioReq)
      (by simp [BioRequest.advance, hcount]) hnext (by omega)
    rw [serve, hsector]
    dsimp only
    refine ⟨hzero, ?_⟩
    rw [hbytes, dataBytes_sectorLoop, Nat.succ_mul]
    omega

/-- **The driver of the card** returns the number of bytes for up to 63 sectors. -/
theorem blockServed_iff (dir : Direction) (s : Cf20) {block count buf : ℕ} (hpos : 0 < count)
    (hle : count ≤ 256) :
    (s.cf20BlockServed dir block count buf).1.toInt =
      (s.cf20BlockServed dir block count buf).2.dataBytes - s.dataBytes ↔ count ≤ 63 := by
  obtain ⟨hzero, hbytes⟩ := @serve_eq dir count s ⟨dir.sector, block, count, buf⟩ rfl (fun _ => rfl) hle
  have hcount : toUint (count + (2 ^ 16 - 0)) = count := by
    rw [toUint]
    omega
  have hmoved : ((s.dataBytes + count * sectorSz : ℕ) : ℤ) - s.dataBytes = ((count * sectorSz : ℕ) : ℤ) := by
    omega
  simp only [cf20BlockServed, cf20BlockEnd, hzero, hcount, hbytes, hmoved]
  simp only [sectorSz]
  rw [int16_toInt_ofNat_iff]
  · omega
  · rw [toUint]
    omega

end Cf20

/-! ## Block devices -/

namespace Blkdev

variable {σ : Type} {dev : Blkdev σ}

/-- The driver moves every block of the device, and returns the number of bytes, as an `int`. -/
structure MovesCounted (dev : Blkdev σ) : Prop extends dev.ReadsCounted where
  writes : ∃ writeBlock, dev.writeBlock = some writeBlock ∧
    ∀ s buf block count, block + count ≤ dev.blockCount → dev.blockSize * count < 2 ^ 16 →
      (writeBlock s buf block count).1 = Int16.ofNat (dev.blockSize * count)

/-- Where a transfer of `total` bytes from `offset` on stands between the phases. -/
structure Midway (dev : Blkdev σ) (offset total : ℕ) (t : Transfer σ) : Prop where
  sum : t.bytes + t.len = total
  aligned : t.len ≠ 0 → t.block * dev.blockSize = offset + t.bytes

section Midway

variable {offset total : ℕ} {t : Transfer σ}

/-- The blocks that are left are on the device. -/
theorem Midway.blocks_le (h : dev.Midway offset total t) (hpos : 0 < dev.blockSize)
    (hrange : offset + total ≤ dev.blockSize * dev.blockCount) :
    t.len / dev.blockSize = 0 ∨ t.block + t.len / dev.blockSize ≤ dev.blockCount := by
  by_cases hzero : t.len / dev.blockSize = 0
  · exact Or.inl hzero
  · right
    have hne : t.len ≠ 0 := by
      rintro h₀
      exact hzero (by rw [h₀, Nat.zero_div])
    have hblock := h.aligned hne
    have hsum := h.sum
    have hwhole := Nat.div_mul_le_self t.len dev.blockSize
    refine Nat.le_of_mul_le_mul_right (c := dev.blockSize) ?_ hpos
    rw [Nat.add_mul, hblock, Nat.mul_comm dev.blockCount]
    omega

/-- The last block is on the device, if it is not a whole one. -/
theorem Midway.block_lt (h : dev.Midway offset total t) (hlen : 0 < t.len)
    (hrange : offset + total ≤ dev.blockSize * dev.blockCount) : t.block < dev.blockCount := by
  have hblock := h.aligned hlen.ne'
  have hsum := h.sum
  refine Nat.lt_of_mul_lt_mul_right (a := dev.blockSize) ?_
  rw [hblock, Nat.mul_comm dev.blockCount]
  omega

/-- After the first block. -/
theorem Midway.first {tocopy : ℕ} (hbytes : t.bytes = 0) (hlen : t.len = total)
    (hblock : t.block = offset / dev.blockSize) (hlt : t.block < dev.blockCount)
    (hcount : dev.blockCount < 2 ^ 32) (hpos : 0 < dev.blockSize)
    (htocopy : tocopy = min (dev.blockSize - offset % dev.blockSize) t.len) :
    dev.Midway offset total (t.advance tocopy 1) := by
  refine ⟨?_, fun hne => ?_⟩
  · simp only [Transfer.advance]
    omega
  · simp only [Transfer.advance] at hne ⊢
    have hfull : tocopy = dev.blockSize - offset % dev.blockSize := by omega
    have hmod := Nat.mod_lt offset hpos
    have hdiv := Nat.div_add_mod offset dev.blockSize
    rw [toUint32_of_lt (by omega), hblock, Nat.add_mul, Nat.one_mul, Nat.mul_comm _ dev.blockSize]
    omega

/-- After the whole blocks. -/
theorem Midway.middle (h : dev.Midway offset total t) (hpos : 0 < dev.blockSize)
    (hrange : offset + total ≤ dev.blockSize * dev.blockCount) (hcount : dev.blockCount < 2 ^ 32) :
    dev.Midway offset total
      (t.advance (dev.blockSize * (t.len / dev.blockSize)) (t.len / dev.blockSize)) := by
  have hsum := h.sum
  have hwhole := Nat.mul_div_le t.len dev.blockSize
  refine ⟨?_, fun hne => ?_⟩
  · simp only [Transfer.advance]
    omega
  · simp only [Transfer.advance] at hne ⊢
    have hblock := h.aligned (by omega)
    have hlt := h.block_lt (by omega) hrange
    have hle : t.block + t.len / dev.blockSize ≤ dev.blockCount := by
      rcases h.blocks_le hpos hrange with hzero | hle
      · omega
      · exact hle
    rw [toUint32_of_lt (by omega), Nat.add_mul, hblock, Nat.mul_comm _ dev.blockSize]
    omega

end Midway

/-! ### The phases of a transfer of fewer than 32768 bytes -/

theorem checkCount_not_neg_of_lt {err : Int16} {count : ℕ} (herr : err = Int16.ofNat (dev.blockSize * count))
    (hlt : dev.blockSize * count < 2 ^ 15) : ¬ dev.checkCount err count < 0 := by
  rw [herr, checkCount_of_lt hlt]
  exact int16_not_neg_of_lt hlt

section Phases

variable {offset total : ℕ} {t : Transfer σ}

theorem ReadsCounted.loadTemp_not_neg (h : dev.ReadsCounted) (hsmall : dev.blockSize < 2 ^ 15)
    (hblock : t.block < dev.blockCount) : ¬ (dev.loadTemp t).1 < 0 := by
  rw [h.loadTemp hblock]
  exact checkCount_not_neg_of_lt rfl (by omega)

/-- The result of writing blocks that are on the device. -/
theorem MovesCounted.writeBlock (h : dev.MovesCounted) (s : σ) (buf : List UInt8) {block count : ℕ}
    (hrange : count = 0 ∨ block + count ≤ dev.blockCount) (hlt : dev.blockSize * count < 2 ^ 16) :
    (dev.blkWriteBlock s buf block count).1 = Int16.ofNat (dev.blockSize * count) := by
  obtain ⟨writeBlock, hwrite, hspec⟩ := h.writes
  simp only [blkWriteBlock, hwrite, blkBlockTrimRange_of_le h.count hrange]
  by_cases hzero : count = 0
  · subst hzero
    simp
  · rw [if_neg hzero]
    exact hspec s buf block count (hrange.resolve_left hzero) hlt

theorem MovesCounted.patchBlock_not_neg (h : dev.MovesCounted) (hsmall : dev.blockSize < 2 ^ 15)
    (hblock : t.block < dev.blockCount) (pos : ℕ) (bytes : List UInt8) :
    ¬ (dev.patchBlock pos bytes t).1 < 0 ∧ (dev.patchBlock pos bytes t).2.block = t.block := by
  have hload := h.toReadsCounted.loadTemp_not_neg hsmall hblock
  rw [Blkdev.patchBlock, andThen_of_not_neg hload]
  refine ⟨checkCount_not_neg_of_lt ?_ (by omega), rfl⟩
  exact h.writeBlock _ _ (Or.inr hblock) (by omega)

/-- A transfer before its first phase. -/
structure Started (dev : Blkdev σ) (offset total : ℕ) (t : Transfer σ) : Prop where
  bytes : t.bytes = 0
  len : t.len = total
  block : t.block = offset / dev.blockSize
  lt : t.block < dev.blockCount

theorem ReadsCounted.started (h : dev.ReadsCounted) (hpos : 0 < total)
    (hrange : offset + total ≤ dev.blockSize * dev.blockCount) (s : σ) (temp buf : List UInt8) :
    dev.Started offset total (dev.start s temp buf offset total) := by
  obtain ⟨hstart, hlt⟩ := h.start_lt hpos hrange s temp buf
  exact ⟨rfl, rfl, hstart, hstart.trans_lt hlt⟩

/-- A transfer that starts at a block has no first phase. -/
theorem Started.midway (ht : dev.Started offset total t) (hpart : offset % dev.blockSize = 0) :
    dev.Midway offset total t := by
  refine ⟨by rw [ht.bytes, ht.len, Nat.zero_add], fun _ => ?_⟩
  rw [ht.block, ht.bytes]
  exact Nat.div_mul_cancel (Nat.dvd_of_mod_eq_zero hpart)

theorem ReadsCounted.readFirst_midway (h : dev.ReadsCounted) (hsmall : dev.blockSize < 2 ^ 15)
    (ht : dev.Started offset total t) :
    ¬ (dev.readFirst offset t).1 < 0 ∧ dev.Midway offset total (dev.readFirst offset t).2 := by
  rw [readFirst]
  split_ifs with hpart
  · have hload := h.loadTemp_not_neg hsmall ht.lt
    rw [andThen_of_not_neg hload]
    exact ⟨hload, Midway.first ht.bytes ht.len ht.block ht.lt h.count h.blockSize_pos rfl⟩
  · exact ⟨(by decide : ¬ (0 : Int16) < 0), ht.midway (not_not.mp hpart)⟩

theorem MovesCounted.writeFirst_midway (h : dev.MovesCounted) (hsmall : dev.blockSize < 2 ^ 15)
    (ht : dev.Started offset total t) :
    ¬ (dev.writeFirst offset t).1 < 0 ∧ dev.Midway offset total (dev.writeFirst offset t).2 := by
  rw [writeFirst]
  split_ifs with hpart
  · let bytes := slice t.buf t.bytes (min (dev.blockSize - offset % dev.blockSize) t.len)
    obtain ⟨hpatch, hblock⟩ := h.patchBlock_not_neg hsmall ht.lt (offset % dev.blockSize) bytes
    obtain ⟨hbytes, hlen⟩ := @patchBlock_counts σ dev (offset % dev.blockSize) bytes t
    dsimp only
    rw [andThen_of_not_neg hpatch]
    refine ⟨hpatch, Midway.first (hbytes.trans ht.bytes) (hlen.trans ht.len) (hblock.trans ht.block)
      (hblock.trans_lt ht.lt) h.count h.blockSize_pos ?_⟩
    rw [hlen]
  · exact ⟨(by decide : ¬ (0 : Int16) < 0), ht.midway (not_not.mp hpart)⟩

/-- The number of bytes of the whole blocks. -/
theorem Midway.whole_lt (ht : dev.Midway offset total t) (hsize : dev.blockSize = 2 ^ dev.blockShift)
    (hlt : total < 2 ^ 15) :
    t.len / 2 ^ dev.blockShift = t.len / dev.blockSize ∧ dev.blockSize * (t.len / dev.blockSize) < 2 ^ 15 ∧
      toUint (t.len / dev.blockSize) = t.len / dev.blockSize := by
  have hsum := ht.sum
  have hle := Nat.mul_div_le t.len dev.blockSize
  have hdiv := Nat.div_le_self t.len dev.blockSize
  exact ⟨by rw [hsize], by omega, toUint_of_lt (by omega)⟩

theorem ReadsCounted.readMiddle_midway (h : dev.ReadsCounted) (hlt : total < 2 ^ 15)
    (hrange : offset + total ≤ dev.blockSize * dev.blockCount) (ht : dev.Midway offset total t) :
    ¬ (dev.readMiddle t).1 < 0 ∧ dev.Midway offset total (dev.readMiddle t).2 := by
  obtain ⟨hshift, hbytes, hcount⟩ := ht.whole_lt h.size hlt
  have hblocks := ht.blocks_le h.blockSize_pos hrange
  have hread := h.readBlock t.state t.buf t.bytes hblocks (by omega)
  rw [readMiddle, hshift]
  dsimp only
  rw [hcount, hread, andThen_checkCount hbytes]
  refine ⟨int16_not_neg_of_lt hbytes, Midway.middle ?_ h.blockSize_pos hrange h.count⟩
  exact ⟨ht.sum, ht.aligned⟩

theorem MovesCounted.writeMiddle_midway (h : dev.MovesCounted) (hlt : total < 2 ^ 15)
    (hrange : offset + total ≤ dev.blockSize * dev.blockCount) (ht : dev.Midway offset total t) :
    ¬ (dev.writeMiddle t).1 < 0 ∧ dev.Midway offset total (dev.writeMiddle t).2 := by
  obtain ⟨hshift, hbytes, hcount⟩ := ht.whole_lt h.size hlt
  have hblocks := ht.blocks_le h.blockSize_pos hrange
  have hwrite := h.writeBlock t.state (t.buf.drop t.bytes) hblocks (by omega)
  rw [writeMiddle, hshift]
  dsimp only
  rw [hcount, hwrite, andThen_checkCount hbytes]
  refine ⟨int16_not_neg_of_lt hbytes, Midway.middle ?_ h.blockSize_pos hrange h.count⟩
  exact ⟨ht.sum, ht.aligned⟩

theorem ReadsCounted.readLast_not_neg (h : dev.ReadsCounted) (hsmall : dev.blockSize < 2 ^ 15)
    (hrange : offset + total ≤ dev.blockSize * dev.blockCount) (ht : dev.Midway offset total t)
    {err : Int16} (herr : ¬ err < 0) : ¬ (dev.readLast err t).1 < 0 := by
  rw [readLast]
  split_ifs with hlen
  · have hload := h.loadTemp_not_neg hsmall (ht.block_lt hlen hrange)
    rw [andThen_of_not_neg hload]
    exact hload
  · exact herr

theorem MovesCounted.writeLast_not_neg (h : dev.MovesCounted) (hsmall : dev.blockSize < 2 ^ 15)
    (hrange : offset + total ≤ dev.blockSize * dev.blockCount) (ht : dev.Midway offset total t)
    {err : Int16} (herr : ¬ err < 0) : ¬ (dev.writeLast err t).1 < 0 := by
  rw [writeLast]
  split_ifs with hlen
  · obtain ⟨hpatch, -⟩ := h.patchBlock_not_neg hsmall (ht.block_lt hlen hrange) 0
      (slice t.buf t.bytes t.len)
    rw [andThen_of_not_neg hpatch]
    exact hpatch
  · exact herr

end Phases

/-! ### The results of the default functions -/

/-- The block devices can report the transfer. -/
def Reportable (dev : Blkdev σ) (len : ℕ) : Prop := len < 2 ^ 15 ∧ dev.blockShift ≤ 14

theorem ReadsCounted.blockSize_lt (h : dev.ReadsCounted) (hshift : dev.blockShift ≤ 14) :
    dev.blockSize < 2 ^ 15 := by
  rw [h.size]
  exact Nat.pow_lt_pow_right (by norm_num) (by omega)

/-- A result that is negative or the number of bytes as an `int` is the number of bytes, if it is not negative
and the number has 15 bits. -/
theorem toInt_result_iff {x : Int16} {len : ℕ} (h : x < 0 ∨ x = Int16.ofNat len) :
    x.toInt = len ↔ len < 2 ^ 15 ∧ ¬ x < 0 := by
  constructor
  · intro heq
    have hmax := x.toInt_lt
    refine ⟨by omega, fun hneg => ?_⟩
    have := int16_toInt_neg hneg
    omega
  · rintro ⟨hlt, hneg⟩
    rw [h.resolve_left hneg]
    exact int16_toInt_of_lt hlt

/-- The result of a transfer whose phases do not fail. -/
theorem result_not_neg {first middle : Transfer σ → Int16 × Transfer σ}
    {last : Int16 → Transfer σ → Int16 × Transfer σ} {offset len : ℕ} {t : Transfer σ} (hlt : len < 2 ^ 15)
    (hfinish : Finishes last) (hfirst : ¬ (first t).1 < 0) (hmiddle : ¬ (middle (first t).2).1 < 0)
    (ht : dev.Midway offset len (middle (first t).2).2)
    (hlast : ¬ (last (middle (first t).2).1 (middle (first t).2).2).1 < 0) :
    ¬ result (phases first middle last t) < 0 := by
  rw [phases_eq hfirst hmiddle, result_of_not_neg hlast, hfinish _ _ hlast, ht.sum]
  exact int16_not_neg_of_lt hlt

/-- **Reading bytes of a block device.** -/
theorem ReadsCounted.defaultRead_iff (h : dev.ReadsCounted) {offset len : ℕ} (hpos : 0 < len)
    (hrange : offset + len ≤ dev.blockSize * dev.blockCount) (s : σ) (temp buf : List UInt8) :
    (dev.blkDefaultRead s (some temp) buf offset len).1.toInt = len ↔ dev.Reportable len := by
  rw [toInt_result_iff (defaultRead_result h.size s temp buf offset len), Reportable]
  refine and_congr_right fun hlt => ?_
  constructor
  · intro hneg
    by_contra hshift
    exact hneg (h.defaultRead_neg (h.blockSize_eq hshift) hpos hlt hrange s temp buf)
  · intro hshift
    have hsmall := h.blockSize_lt hshift
    obtain ⟨hfirst, ht₁⟩ := h.readFirst_midway hsmall (h.started hpos hrange s temp buf)
    obtain ⟨hmiddle, ht₂⟩ := h.readMiddle_midway hlt hrange ht₁
    simp only [blkDefaultRead]
    exact result_not_neg hlt finishes_readLast hfirst hmiddle ht₂
      (h.readLast_not_neg hsmall hrange ht₂ hmiddle)

/-- **Writing bytes of a block device.** -/
theorem MovesCounted.defaultWrite_iff (h : dev.MovesCounted) {offset len : ℕ} (hpos : 0 < len)
    (hrange : offset + len ≤ dev.blockSize * dev.blockCount) (s : σ) (temp buf : List UInt8) :
    (dev.blkDefaultWrite s (some temp) buf offset len).1.toInt = len ↔ dev.Reportable len := by
  rw [toInt_result_iff (defaultWrite_result h.size s temp buf offset len), Reportable]
  refine and_congr_right fun hlt => ?_
  constructor
  · intro hneg
    by_contra hshift
    exact hneg (h.defaultWrite_neg (h.blockSize_eq hshift) hpos hlt hrange s temp buf)
  · intro hshift
    have hsmall := h.blockSize_lt hshift
    obtain ⟨hfirst, ht₁⟩ := h.writeFirst_midway hsmall (h.started hpos hrange s temp buf)
    obtain ⟨hmiddle, ht₂⟩ := h.writeMiddle_midway hlt hrange ht₁
    simp only [blkDefaultWrite]
    exact result_not_neg hlt finishes_writeLast hfirst hmiddle ht₂
      (h.writeLast_not_neg hsmall hrange ht₂ hmiddle)

end Blkdev

/-! ## Reading an inode -/

namespace Ext2

/-- The number of bytes that a read has copied, block by block. -/
def Transfer.moved (t : Transfer) : ℕ := (t.uses.map Use.length).sum

variable {fs : Ext2} {inode : Inode}

theorem moved_append (a b : Transfer) : (a.append b).moved = a.moved + b.moved := by
  rw [Transfer.moved, Transfer.append, List.map_append, List.sum_append]
  rfl

theorem moved_copyOut (fileBlock offset start length : ℕ) :
    (fs.copyOut inode fileBlock offset start length).moved = length := by
  simp [Transfer.moved, copyOut]

theorem moved_readBlocks (hpos : 0 < fs.blockSize) (fuel : ℕ) : ∀ {fileBlock offset len : ℕ}, len < fuel →
    (fs.readBlocks inode fuel fileBlock offset len).moved = len := by
  induction fuel with
  | zero =>
    intro fileBlock offset len hlen
    omega
  | succ fuel ih =>
    intro fileBlock offset len hlen
    rw [readBlocks]
    split_ifs with hfull hlast
    · rw [moved_append, moved_copyOut, ih (by omega)]
      omega
    · exact moved_copyOut _ _ _ _
    · obtain rfl : len = 0 := by omega
      rfl

/-- A read copies as many bytes as it is trimmed to. -/
theorem moved_readInode (hpos : 0 < fs.blockSize) (offset len : ℕ) :
    (fs.ext2ReadInode inode offset len).2.moved = fs.trimLen inode offset len := by
  simp only [ext2ReadInode]
  split_ifs with hzero hpart
  · rw [hzero]
    rfl
  · rw [moved_append, moved_copyOut, moved_readBlocks hpos _ (by omega)]
    omega
  · exact moved_readBlocks hpos _ (by omega)

/-- **Reading an inode** returns the number of bytes if there are fewer than 32768. -/
theorem readInode_count_iff (hpos : 0 < fs.blockSize) (buf : List UInt8) (offset : ℕ) {len : ℕ}
    (hlen : len < 2 ^ 16) :
    (fs.ext2ReadInodeInto inode buf offset len).1.toInt = (fs.ext2ReadInode inode offset len).2.moved ↔
      fs.trimLen inode offset len < 2 ^ 15 := by
  rw [ext2ReadInodeInto, bytesRead_readInodeVars inode buf offset hlen, moved_readInode hpos]
  exact int16_toInt_ofNat_iff (Or.inl rfl)

end Ext2

/-- **The results of transfers that succeed.** `cf20_read_block` and `cf20_write_block` return the number of
bytes that went through the data port if and only if they move at most 63 sectors; `blk_default_read` and
`blk_default_write`, for a range on the device and a driver that returns the number of bytes of the blocks, if
and only if the range has fewer than 32768 bytes, and a block too; and `ext2_read_inode` returns the number of
bytes it copies if and only if the read has fewer than 32768, trimmed to the end of the file. -/
theorem transfer_count_iff {σ : Type} (dev : Blkdev σ) (hdev : dev.MovesCounted) (s : σ)
    (temp buf : List UInt8) (offset len : ℕ) (hpos : 0 < len)
    (hrange : offset + len ≤ dev.blockSize * dev.blockCount) (dir : Direction) (cf : Cf20)
    (block count addr : ℕ) (hcount : 0 < count) (hmax : count ≤ 256) (fs : Ext2) (inode : Inode)
    (dst : List UInt8) (start size : ℕ) (hbs : 0 < fs.blockSize) (hsize : size < 2 ^ 16) :
    ((cf.cf20BlockServed dir block count addr).1.toInt =
      (cf.cf20BlockServed dir block count addr).2.dataBytes - cf.dataBytes ↔ count ≤ 63) ∧
    ((dev.blkDefaultRead s (some temp) buf offset len).1.toInt = len ↔ dev.Reportable len) ∧
    ((dev.blkDefaultWrite s (some temp) buf offset len).1.toInt = len ↔ dev.Reportable len) ∧
    ((fs.ext2ReadInodeInto inode dst start size).1.toInt = (fs.ext2ReadInode inode start size).2.moved ↔
      fs.trimLen inode start size < 2 ^ 15) :=
  ⟨Cf20.blockServed_iff dir cf hcount hmax, hdev.defaultRead_iff hpos hrange s temp buf,
    hdev.defaultWrite_iff hpos hrange s temp buf, Ext2.readInode_count_iff hbs dst start hsize⟩

theorem movesCounted_ramDisk {shift count : ℕ} (hshift : shift ≤ 15) (hcount : count < 2 ^ 32) :
    (ramDisk shift count).MovesCounted where
  size := rfl
  word := Nat.pow_lt_pow_right (by norm_num) (by omega)
  count := hcount
  reads := ⟨_, rfl, fun _ _ _ _ _ => rfl⟩
  writable := ⟨_, rfl⟩
  writes := ⟨_, rfl, fun _ _ _ _ _ _ => rfl⟩

/-- Five bytes of a small disk, one sector of the card, and ten bytes of a file. -/
theorem transfer_count_small :
    (ramDisk 4 4).MovesCounted ∧
      ((ramDisk 4 4).blkDefaultRead ⟨List.replicate 64 0, rfl⟩ (some (List.replicate 16 0)) [1, 2, 3, 4, 5]
        14 5).1.toInt = 5 ∧
      ((ramDisk 4 4).blkDefaultWrite ⟨List.replicate 64 0, rfl⟩ (some (List.replicate 16 0)) [1, 2, 3, 4, 5]
        14 5).1.toInt = 5 ∧
      ((Ext2.serving 0 fun _ => 0).ext2ReadInodeInto tenBytes (List.replicate 100 0) 0 100).1.toInt =
        ((Ext2.serving 0 fun _ => 0).ext2ReadInode tenBytes 0 100).2.moved := by
  have hdev : (ramDisk 4 4).MovesCounted := movesCounted_ramDisk (by norm_num) (by norm_num)
  obtain ⟨-, hread, hwrite, hinode⟩ := transfer_count_iff (ramDisk 4 4) hdev ⟨List.replicate 64 0, rfl⟩
    (List.replicate 16 0) [1, 2, 3, 4, 5] 14 5 (by norm_num) (by decide) .read Cf20.initial 0 1 4096
    (by norm_num) (by norm_num) (Ext2.serving 0 fun _ => 0) tenBytes (List.replicate 100 0) 0 100 (by decide)
    (by norm_num)
  exact ⟨hdev, hread.mpr ⟨by norm_num, by decide⟩, hwrite.mpr ⟨by norm_num, by decide⟩,
    hinode.mpr (by decide)⟩

/-- 64 sectors are moved without error, and the result is -32768. -/
theorem not_counted_sectors :
    (Cf20.initial.cf20BlockServed .read 0 64 4096).2.dataBytes = 32768 ∧
      (Cf20.initial.cf20BlockServed .read 0 64 4096).1 = -32768 := by
  obtain ⟨hcount, hbytes⟩ := @Cf20.serve_eq .read 64 Cf20.initial ⟨.readSector, 0, 64, 4096⟩ rfl
    (fun _ => rfl) (by norm_num)
  simp only [Cf20.cf20BlockServed, Cf20.cf20BlockEnd, Direction.sector]
  rw [hbytes, hcount]
  decide

end I80k.Kernel

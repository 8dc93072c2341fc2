import I80k.Kernel.Blkdev

/-!
# The phases of a transfer

Above a driver that moves whole blocks of a backing array, the phases of a default read and of a default
write move one range of that array. Each phase continues where the one before it stopped: what is in the
buffer, or on the device, is the range from `offset` on up to the number of bytes moved so far, and the
next block is the one that this range ends at.

## Main definitions

* `Blkdev.Backs`: the driver moves the blocks of a backing array
* `Blkdev.Movable`: the transfers that the driver can do
* `Blkdev.Positioned`, `Blkdev.ReadDone`, `Blkdev.WriteDone`: what holds between the phases

## Main results

* `Blkdev.Backs.patchBlock`: a block that is read, changed and written back
* `Blkdev.Backs.defaultRead`, `Blkdev.Backs.defaultWrite`: the phases compose to one transfer
-/

namespace I80k.Kernel

open FlatArray

namespace Blkdev

variable {σ : Type} {dev : Blkdev σ} {contents : σ → List UInt8}

/-- The driver moves the blocks of the array `contents`, and returns the number of bytes, as an `int`. -/
structure Backs (dev : Blkdev σ) (contents : σ → List UInt8) : Prop where
  size : dev.blockSize = 2 ^ dev.blockShift
  word : dev.blockSize < 2 ^ 16
  total : dev.blockSize * dev.blockCount < 2 ^ 31
  length : ∀ s, (contents s).length = dev.blockSize * dev.blockCount
  reads : ∃ readBlock, dev.readBlock = some readBlock ∧
    ∀ s block count, block + count ≤ dev.blockCount → count < 2 ^ 16 →
      readBlock s block count = (Int16.ofNat (dev.blockSize * count),
        slice (contents s) (block * dev.blockSize) (dev.blockSize * count))
  writes : ∃ writeBlock, dev.writeBlock = some writeBlock ∧
    ∀ s buf block count, block + count ≤ dev.blockCount → count < 2 ^ 16 →
      dev.blockSize * count ≤ buf.length →
      (writeBlock s buf block count).1 = Int16.ofNat (dev.blockSize * count) ∧
        contents (writeBlock s buf block count).2 =
          splice (contents s) (block * dev.blockSize) (buf.take (dev.blockSize * count))
  default : dev.read = none ∧ dev.write = none

/-! ## The driver -/

theorem andThen_of_not_neg {r : Int16 × Transfer σ} {next : Int16 → Transfer σ → Int16 × Transfer σ}
    (h : ¬ r.1 < 0) : andThen r next = next r.1 r.2 := if_neg h

theorem andThen_of_neg {r : Int16 × Transfer σ} {next : Int16 → Transfer σ → Int16 × Transfer σ}
    (h : r.1 < 0) : andThen r next = r := if_pos h

/-- What goes on has not failed before. -/
theorem not_neg_of_andThen {r : Int16 × Transfer σ} {next : Int16 → Transfer σ → Int16 × Transfer σ}
    (h : ¬ (andThen r next).1 < 0) : ¬ r.1 < 0 := by
  intro hneg
  rw [andThen_of_neg hneg] at h
  exact h hneg

/-- Phases that do not fail, one after the other. -/
theorem phases_eq {first middle : Transfer σ → Int16 × Transfer σ}
    {last : Int16 → Transfer σ → Int16 × Transfer σ} {t : Transfer σ} (hfirst : ¬ (first t).1 < 0)
    (hmiddle : ¬ (middle (first t).2).1 < 0) :
    phases first middle last t = last (middle (first t).2).1 (middle (first t).2).2 := by
  rw [phases, andThen_of_not_neg hfirst, andThen_of_not_neg hmiddle]

/-- The number of bytes, if the driver returned it. -/
theorem checkCount_of_lt {count : ℕ} (h : dev.blockSize * count < 2 ^ 15) :
    dev.checkCount (Int16.ofNat (dev.blockSize * count)) count = Int16.ofNat (dev.blockSize * count) := by
  have hcast : (Int16.ofNat (dev.blockSize * count)).toInt.toNat = toUint32 (dev.blockSize * count) := by
    rw [int16_toInt_of_lt h, toUint32_of_lt (by omega), Int.toNat_natCast]
  rw [checkCount, if_neg (int16_not_neg_of_lt h), if_neg (not_not.mpr hcast)]

/-- A phase that moved whole blocks goes on with their number of bytes. -/
theorem andThen_checkCount {count : ℕ} (h : dev.blockSize * count < 2 ^ 15) (t : Transfer σ) :
    andThen (dev.checkCount (Int16.ofNat (dev.blockSize * count)) count, t)
        (fun err t => (err, t.advance err.toInt.toNat count)) =
      (Int16.ofNat (dev.blockSize * count), t.advance (dev.blockSize * count) count) := by
  have hcast : (Int16.ofNat (dev.blockSize * count)).toInt.toNat = dev.blockSize * count := by
    rw [int16_toInt_of_lt h, Int.toNat_natCast]
  rw [checkCount_of_lt h, andThen]
  dsimp only
  rw [if_neg (int16_not_neg_of_lt h), hcast]

/-- And it was the number of bytes, if there is no error. -/
theorem checkCount_not_neg {err : Int16} {count : ℕ} (h : ¬ dev.checkCount err count < 0) :
    (dev.checkCount err count).toInt.toNat = toUint32 (dev.blockSize * count) := by
  rw [checkCount] at h ⊢
  split_ifs at h ⊢ with h₁ h₂
  · exact absurd h₁ h
  · exact absurd (by decide) h
  · exact not_not.mp h₂

theorem Backs.blockSize_pos (h : dev.Backs contents) : 0 < dev.blockSize := by
  rw [h.size]
  exact Nat.two_pow_pos _

theorem Backs.blockCount_lt (h : dev.Backs contents) : dev.blockCount < 2 ^ 31 :=
  (Nat.le_mul_of_pos_left _ h.blockSize_pos).trans_lt h.total

/-- A range of blocks on the device is not cut. -/
theorem blkBlockTrimRange_of_le {block count : ℕ} (hcount : dev.blockCount < 2 ^ 32)
    (hrange : count = 0 ∨ block + count ≤ dev.blockCount) :
    dev.blkBlockTrimRange block count = count := by
  rw [blkBlockTrimRange]
  rcases hrange with rfl | hrange
  · simp
  · have hsum : toUint32 (block + count) = block + count := toUint32_of_lt (by omega)
    rw [hsum]
    split_ifs with h₁ h₂ h₃
    · omega
    · exact h₂.symm
    · omega
    · rfl

theorem Backs.blockTrimRange (h : dev.Backs contents) {block count : ℕ}
    (hrange : count = 0 ∨ block + count ≤ dev.blockCount) : dev.blkBlockTrimRange block count = count :=
  blkBlockTrimRange_of_le (h.blockCount_lt.trans (by norm_num)) hrange

theorem Backs.readBlock (h : dev.Backs contents) (s : σ) (buf : List UInt8) (pos : ℕ) {block count : ℕ}
    (hrange : count = 0 ∨ block + count ≤ dev.blockCount) (hcount : count < 2 ^ 16) :
    dev.blkReadBlock s buf pos block count = (Int16.ofNat (dev.blockSize * count),
      splice buf pos (slice (contents s) (block * dev.blockSize) (dev.blockSize * count))) := by
  obtain ⟨readBlock, hread, hspec⟩ := h.reads
  simp only [blkReadBlock, hread, h.blockTrimRange hrange]
  by_cases hzero : count = 0
  · subst hzero
    simp
  · rw [if_neg hzero, hspec s block count (hrange.resolve_left hzero) hcount]

theorem Backs.writeBlock (h : dev.Backs contents) (s : σ) {buf : List UInt8} {block count : ℕ}
    (hrange : count = 0 ∨ block + count ≤ dev.blockCount) (hcount : count < 2 ^ 16)
    (hbuf : dev.blockSize * count ≤ buf.length) :
    ∃ s', dev.blkWriteBlock s buf block count = (Int16.ofNat (dev.blockSize * count), s') ∧
      contents s' = splice (contents s) (block * dev.blockSize) (buf.take (dev.blockSize * count)) := by
  obtain ⟨writeBlock, hwrite, hspec⟩ := h.writes
  simp only [blkWriteBlock, hwrite, h.blockTrimRange hrange]
  by_cases hzero : count = 0
  · subst hzero
    exact ⟨s, by simp, by simp⟩
  · obtain ⟨hres, hcontents⟩ := hspec s buf block count (hrange.resolve_left hzero) hcount hbuf
    refine ⟨_, ?_, hcontents⟩
    rw [if_neg hzero, ← hres]

theorem Backs.block_end (h : dev.Backs contents) (s : σ) {block : ℕ} (hblock : block < dev.blockCount) :
    block * dev.blockSize + dev.blockSize ≤ (contents s).length := by
  rw [h.length, ← Nat.succ_mul, Nat.mul_comm]
  exact Nat.mul_le_mul_left _ hblock

theorem Backs.length_block (h : dev.Backs contents) (s : σ) {block : ℕ} (hblock : block < dev.blockCount) :
    (slice (contents s) (block * dev.blockSize) dev.blockSize).length = dev.blockSize :=
  length_slice (h.block_end s hblock)

/-- The temporary buffer gets the block. -/
theorem Backs.loadTemp (h : dev.Backs contents) (hshift : dev.blockSize < 2 ^ 15) {t : Transfer σ}
    (htemp : t.temp.length = dev.blockSize) (hblock : t.block < dev.blockCount) :
    dev.loadTemp t = (Int16.ofNat dev.blockSize,
      { t with temp := slice (contents t.state) (t.block * dev.blockSize) dev.blockSize }) := by
  have hone : 1 = 0 ∨ t.block + 1 ≤ dev.blockCount := Or.inr hblock
  have hread := h.readBlock t.state t.temp 0 hone (by norm_num)
  have hcheck := @checkCount_of_lt σ dev 1 (by omega)
  rw [Nat.mul_one] at hread hcheck
  rw [Blkdev.loadTemp, hread]
  dsimp only
  rw [hcheck, splice_slice_all (htemp.trans (h.length_block t.state hblock).symm)]

/-- The block gets the temporary buffer. -/
theorem Backs.storeTemp (h : dev.Backs contents) (hshift : dev.blockSize < 2 ^ 15) {t : Transfer σ}
    (htemp : t.temp.length = dev.blockSize) (hblock : t.block < dev.blockCount) :
    ∃ s', dev.storeTemp t = (Int16.ofNat dev.blockSize, { t with state := s' }) ∧
      contents s' = splice (contents t.state) (t.block * dev.blockSize) t.temp := by
  have hone : 1 = 0 ∨ t.block + 1 ≤ dev.blockCount := Or.inr hblock
  obtain ⟨s', hwrite, hcontents⟩ := h.writeBlock t.state hone (by norm_num)
    (show dev.blockSize * 1 ≤ t.temp.length by omega)
  have hcheck := @checkCount_of_lt σ dev 1 (by omega)
  rw [Nat.mul_one] at hwrite hcheck hcontents
  refine ⟨s', ?_, ?_⟩
  · rw [Blkdev.storeTemp, hwrite]
    dsimp only
    rw [hcheck]
  · rw [hcontents, ← htemp, List.take_length]

/-! ## The phases of a transfer -/

/-- A transfer that the driver can do: the range is on the device, and its length and the size of a block
have 15 bits. -/
structure Movable (dev : Blkdev σ) (offset total : ℕ) : Prop where
  small : dev.blockSize < 2 ^ 15
  range : offset + total ≤ dev.blockSize * dev.blockCount
  length : total < 2 ^ 15

/-- Where a transfer of `total` bytes stands between the phases: the next block is the one that the range
moved so far ends at. -/
structure Positioned (dev : Blkdev σ) (offset total : ℕ) (t : Transfer σ) : Prop where
  temp : t.temp.length = dev.blockSize
  sum : t.bytes + t.len = total
  aligned : t.len = 0 ∨ t.block * dev.blockSize = offset + t.bytes

/-- The next block is on the device, if there is something left to move. -/
theorem Positioned.block_lt {offset total : ℕ} {t : Transfer σ} (ht : dev.Positioned offset total t)
    (hm : dev.Movable offset total) (hlen : 0 < t.len) : t.block < dev.blockCount := by
  have hsum := ht.sum
  have hrange := hm.range
  have haligned := ht.aligned.resolve_left (by omega)
  rw [Nat.mul_comm] at haligned
  exact Nat.lt_of_mul_lt_mul_left (show dev.blockSize * t.block < dev.blockSize * dev.blockCount by omega)

/-- The whole blocks that are left are on the device. -/
theorem Positioned.blocks_le {offset total : ℕ} {t : Transfer σ} (ht : dev.Positioned offset total t)
    (h : dev.Backs contents) (hm : dev.Movable offset total) :
    t.len / dev.blockSize = 0 ∨ t.block + t.len / dev.blockSize ≤ dev.blockCount := by
  have hsum := ht.sum
  have hrange := hm.range
  rcases ht.aligned with hzero | haligned
  · left
    rw [hzero, Nat.zero_div]
  · right
    have hmul := Nat.div_mul_le_self t.len dev.blockSize
    refine Nat.le_of_mul_le_mul_right ?_ h.blockSize_pos
    rw [Nat.add_mul, haligned, Nat.mul_comm dev.blockCount]
    omega

/-- After the whole blocks less than a block is left. -/
theorem Positioned.advance {offset total : ℕ} {t : Transfer σ} (ht : dev.Positioned offset total t)
    (h : dev.Backs contents) (hm : dev.Movable offset total) :
    dev.Positioned offset total (t.advance (dev.blockSize * (t.len / dev.blockSize)) (t.len / dev.blockSize)) ∧
      (t.advance (dev.blockSize * (t.len / dev.blockSize)) (t.len / dev.blockSize)).len < dev.blockSize := by
  have hdiv := Nat.div_add_mod t.len dev.blockSize
  have hmod := Nat.mod_lt t.len h.blockSize_pos
  have hsum := ht.sum
  have hcount := h.blockCount_lt
  refine ⟨⟨ht.temp, ?_, ?_⟩, ?_⟩
  · simp only [Transfer.advance]
    omega
  · -- With nothing left there is no next block; else the blocks moved end on the device.
    rcases Nat.eq_zero_or_pos t.len with hzero | hpos
    · left
      simp [Transfer.advance, hzero]
    · right
      have haligned := ht.aligned.resolve_left hpos.ne'
      have hblock := ht.block_lt hm hpos
      have hle : t.block + t.len / dev.blockSize ≤ dev.blockCount := by
        rcases ht.blocks_le h hm with hnone | hle
        · omega
        · exact hle
      simp only [Transfer.advance]
      rw [toUint32_of_lt (by omega), Nat.add_mul, haligned, Nat.mul_comm (t.len / _)]
      omega
  · simp only [Transfer.advance]
    omega

/-- The number of bytes of the whole blocks that are left, and of the blocks. -/
theorem Positioned.middle_lt {offset total : ℕ} {t : Transfer σ} (ht : dev.Positioned offset total t)
    (hm : dev.Movable offset total) :
    dev.blockSize * (t.len / dev.blockSize) < 2 ^ 15 ∧ t.len / dev.blockSize < 2 ^ 16 := by
  have hsum := ht.sum
  have htotal := hm.length
  have hle := Nat.mul_div_le t.len dev.blockSize
  have hself := Nat.div_le_self t.len dev.blockSize
  omega

/-- The first block ends at a block, or the transfer ends in it. -/
theorem Backs.positioned_first (h : dev.Backs contents) {offset total : ℕ} (hm : dev.Movable offset total)
    {t : Transfer σ} (htemp : t.temp.length = dev.blockSize) (hbytes : t.bytes = 0) (hlen : t.len = total)
    (hblock : t.block = offset / dev.blockSize) (hpart : offset % dev.blockSize ≠ 0) :
    t.block < dev.blockCount ∧ dev.Positioned offset total
      (t.advance (min (dev.blockSize - offset % dev.blockSize) t.len) 1) := by
  have hdiv := Nat.div_add_mod offset dev.blockSize
  have hmod := Nat.mod_lt offset h.blockSize_pos
  have hrange := hm.range
  have hcount := h.blockCount_lt
  have hlt : t.block < dev.blockCount := by
    rw [hblock]
    refine Nat.lt_of_mul_lt_mul_left (a := dev.blockSize) ?_
    omega
  refine ⟨hlt, htemp, ?_, ?_⟩
  · simp only [Transfer.advance]
    omega
  · simp only [Transfer.advance]
    rcases Nat.le_total t.len (dev.blockSize - offset % dev.blockSize) with hle | hle
    · left
      omega
    · right
      rw [min_eq_left hle, toUint32_of_lt (by omega), hblock, Nat.succ_mul, Nat.mul_comm]
      omega

/-- A transfer that starts at a block. -/
theorem positioned_start {offset total : ℕ} {t : Transfer σ} (htemp : t.temp.length = dev.blockSize)
    (hbytes : t.bytes = 0) (hlen : t.len = total) (hblock : t.block = offset / dev.blockSize)
    (hpart : offset % dev.blockSize = 0) : dev.Positioned offset total t := by
  refine ⟨htemp, by omega, Or.inr ?_⟩
  rw [hblock, hbytes, Nat.add_zero]
  exact Nat.div_mul_cancel (Nat.dvd_of_mod_eq_zero hpart)

theorem Backs.start_block (h : dev.Backs contents) {offset total : ℕ}
    (hrange : offset + total ≤ dev.blockSize * dev.blockCount) (s : σ) (temp buf : List UInt8) :
    (dev.start s temp buf offset total).block = offset / dev.blockSize := by
  have hle := Nat.div_le_self offset dev.blockSize
  have htotal := h.total
  exact toUint32_of_lt (by omega)

/-! ## Reading -/

/-- The state of a read between the phases: the buffer has the range moved so far. -/
structure ReadDone (dev : Blkdev σ) (contents : σ → List UInt8) (s : σ) (buf : List UInt8)
    (offset total : ℕ) (t : Transfer σ) : Prop extends dev.Positioned offset total t where
  state : t.state = s
  buf : t.buf = splice buf 0 (slice (contents s) offset t.bytes)

/-- The buffer after one more piece of the range. -/
theorem ReadDone.splice {s : σ} {buf : List UInt8} {offset total n : ℕ} {t : Transfer σ}
    (ht : dev.ReadDone contents s buf offset total t) (h : dev.Backs contents)
    (hm : dev.Movable offset total) :
    splice t.buf t.bytes (slice (contents s) (offset + t.bytes) n) =
      splice buf 0 (slice (contents s) offset (t.bytes + n)) := by
  have hlen : (slice (contents s) offset t.bytes).length = t.bytes := by
    refine length_slice ?_
    have hsum := ht.sum
    have hrange := hm.range
    rw [h.length]
    omega
  have hsplice := @splice_splice _ buf (slice (contents s) offset t.bytes)
    (slice (contents s) (offset + t.bytes) n) 0 (Nat.zero_le _)
  rw [hlen, Nat.zero_add] at hsplice
  rw [ht.buf, hsplice, slice_append_slice]

theorem Backs.readFirst (h : dev.Backs contents) {offset total : ℕ} (hm : dev.Movable offset total)
    (s : σ) {temp : List UInt8} (buf : List UInt8) (htemp : temp.length = dev.blockSize) :
    ¬ (dev.readFirst offset (dev.start s temp buf offset total)).1 < 0 ∧
      dev.ReadDone contents s buf offset total
        (dev.readFirst offset (dev.start s temp buf offset total)).2 := by
  have hblock := h.start_block hm.range s temp buf
  set t := dev.start s temp buf offset total with ht
  rw [Blkdev.readFirst]
  split_ifs with hpart
  · obtain ⟨hlt, hpos⟩ := h.positioned_first hm (t := t) htemp rfl rfl hblock hpart
    have hload := h.loadTemp hm.small (t := t) htemp hlt
    have hnneg : ¬ (dev.loadTemp t).1 < 0 := by
      rw [hload]
      exact int16_not_neg_of_lt hm.small
    have hmod := Nat.mod_lt offset h.blockSize_pos
    have hoffset : t.block * dev.blockSize + offset % dev.blockSize = offset := by
      rw [hblock, Nat.mul_comm]
      exact Nat.div_add_mod offset dev.blockSize
    -- The part of the first block is the beginning of the range.
    have hslice : slice (slice (contents s) (t.block * dev.blockSize) dev.blockSize)
        (offset % dev.blockSize) (min (dev.blockSize - offset % dev.blockSize) total) =
        slice (contents s) offset (min (dev.blockSize - offset % dev.blockSize) total) := by
      rw [slice_slice (by omega), hoffset]
    rw [andThen_of_not_neg hnneg, hload]
    refine ⟨int16_not_neg_of_lt hm.small, ⟨h.length_block s hlt, hpos.sum, hpos.aligned⟩, rfl, ?_⟩
    simpa [Transfer.advance, ht, start] using congrArg (FlatArray.splice buf 0) hslice
  · exact ⟨(by decide : ¬ (0 : Int16) < 0), positioned_start htemp rfl rfl hblock (not_not.mp hpart), rfl,
      by simp [ht, start]⟩

theorem ReadDone.middle {s : σ} {buf : List UInt8} {offset total : ℕ} {t : Transfer σ}
    (ht : dev.ReadDone contents s buf offset total t) (h : dev.Backs contents)
    (hm : dev.Movable offset total) :
    ¬ (dev.readMiddle t).1 < 0 ∧ dev.ReadDone contents s buf offset total (dev.readMiddle t).2 ∧
      (dev.readMiddle t).2.len < dev.blockSize := by
  obtain ⟨hpos, hlen⟩ := ht.advance h hm
  obtain ⟨hbytes, hcount⟩ := ht.middle_lt hm
  have hread := h.readBlock t.state t.buf t.bytes (ht.blocks_le h hm) hcount
  -- The whole blocks continue what was read so far.
  have hbuf : FlatArray.splice t.buf t.bytes (slice (contents s) (t.block * dev.blockSize)
      (dev.blockSize * (t.len / dev.blockSize))) =
      FlatArray.splice buf 0 (slice (contents s) offset
        (t.bytes + dev.blockSize * (t.len / dev.blockSize))) := by
    rw [← ht.splice h hm]
    rcases ht.aligned with hzero | haligned
    · simp [hzero]
    · rw [haligned]
  -- The driver returns their bytes, and the check of the count passes.
  have hmiddle : dev.readMiddle t = (Int16.ofNat (dev.blockSize * (t.len / dev.blockSize)),
      { t with buf := FlatArray.splice buf 0 (slice (contents s) offset
        (t.bytes + dev.blockSize * (t.len / dev.blockSize))) }.advance
          (dev.blockSize * (t.len / dev.blockSize)) (t.len / dev.blockSize)) := by
    rw [readMiddle, ← h.size]
    dsimp only
    rw [toUint_of_lt hcount, hread, ht.state, hbuf]
    exact andThen_checkCount hbytes _
  rw [hmiddle]
  dsimp only [Transfer.advance] at hpos hlen ⊢
  refine ⟨?_, ⟨⟨?_, ?_, ?_⟩, ?_, ?_⟩, ?_⟩
  · exact int16_not_neg_of_lt hbytes
  · exact hpos.temp
  · exact hpos.sum
  · exact hpos.aligned
  · exact ht.state
  · rfl
  · exact hlen

theorem ReadDone.last {s : σ} {buf : List UInt8} {offset total : ℕ} {t : Transfer σ} {err : Int16}
    (ht : dev.ReadDone contents s buf offset total t) (h : dev.Backs contents)
    (hm : dev.Movable offset total) (herr : ¬ err < 0) (hlen : t.len < dev.blockSize) :
    ¬ (dev.readLast err t).1 < 0 ∧ (dev.readLast err t).2.bytes = total ∧
      (dev.readLast err t).2.buf = FlatArray.splice buf 0 (slice (contents s) offset total) := by
  rw [readLast]
  have hsum := ht.sum
  split_ifs with hpos
  · have hlt := ht.block_lt hm hpos
    have hload := h.loadTemp hm.small ht.temp hlt
    have hnneg : ¬ (dev.loadTemp t).1 < 0 := by
      rw [hload]
      exact int16_not_neg_of_lt hm.small
    have hslice : slice (slice (contents s) (t.block * dev.blockSize) dev.blockSize) 0 t.len =
        slice (contents s) (offset + t.bytes) t.len := by
      rw [slice_slice (by omega), Nat.add_zero, ht.aligned.resolve_left hpos.ne']
    rw [andThen_of_not_neg hnneg, hload]
    refine ⟨int16_not_neg_of_lt hm.small, hsum, ?_⟩
    dsimp only
    rw [ht.state, hslice, ht.splice h hm, hsum]
  · have hbytes : t.bytes = total := by omega
    exact ⟨herr, hbytes, hbytes ▸ ht.buf⟩

/-- The result of a transfer that does not fail. -/
theorem result_of_not_neg {r : Int16 × Transfer σ} (h : ¬ r.1 < 0) : result r = Int16.ofNat r.2.bytes :=
  if_pos (Int16.not_lt.mp h)

/-- **The phases of a read** move one range. -/
theorem Backs.defaultRead (h : dev.Backs contents) {offset total : ℕ} (hm : dev.Movable offset total)
    (s : σ) {temp : List UInt8} (buf : List UInt8) (htemp : temp.length = dev.blockSize) :
    dev.blkDefaultRead s (some temp) buf offset total =
      (Int16.ofNat total, FlatArray.splice buf 0 (slice (contents s) offset total)) := by
  obtain ⟨hfirst, hdone⟩ := h.readFirst hm s buf htemp
  obtain ⟨hmiddle, hdone', hlen⟩ := hdone.middle h hm
  obtain ⟨hlast, hbytes, hbuf⟩ := hdone'.last h hm hmiddle hlen
  simp only [blkDefaultRead]
  rw [phases_eq hfirst hmiddle, result_of_not_neg hlast, hbytes, hbuf]

/-! ## Writing -/

/-- The state of a write between the phases: the device has the range moved so far. -/
structure WriteDone (dev : Blkdev σ) (contents : σ → List UInt8) (s : σ) (buf : List UInt8)
    (offset total : ℕ) (t : Transfer σ) : Prop extends dev.Positioned offset total t where
  state : contents t.state = splice (contents s) offset (buf.take t.bytes)
  buf : t.buf = buf

/-- The device after one more piece of the range. -/
theorem WriteDone.splice {s : σ} {buf : List UInt8} {offset total n : ℕ} {t : Transfer σ}
    (ht : dev.WriteDone contents s buf offset total t) (h : dev.Backs contents)
    (hm : dev.Movable offset total) (hbuf : total ≤ buf.length) :
    splice (contents t.state) (offset + t.bytes) (slice buf t.bytes n) =
      splice (contents s) offset (buf.take (t.bytes + n)) := by
  have hsum := ht.sum
  have hrange := hm.range
  have hlen : (buf.take t.bytes).length = t.bytes := by
    rw [List.length_take]
    omega
  have hoffset : offset ≤ (contents s).length := by
    rw [h.length]
    omega
  have hsplice := @splice_splice _ (contents s) (buf.take t.bytes) (slice buf t.bytes n) offset hoffset
  rw [hlen] at hsplice
  rw [ht.state, hsplice, List.take_add, slice]

/-- Changing part of a block through the temporary buffer. -/
theorem Backs.patchBlock (h : dev.Backs contents) (hsmall : dev.blockSize < 2 ^ 15) {t : Transfer σ}
    (htemp : t.temp.length = dev.blockSize) (hblock : t.block < dev.blockCount) {pos : ℕ}
    {bytes : List UInt8} (hbytes : pos + bytes.length ≤ dev.blockSize) :
    ∃ temp s', dev.patchBlock pos bytes t = (Int16.ofNat dev.blockSize, { t with temp, state := s' }) ∧
      temp.length = dev.blockSize ∧
      contents s' = FlatArray.splice (contents t.state) (t.block * dev.blockSize + pos) bytes := by
  have hlen := h.length_block t.state hblock
  set block := slice (contents t.state) (t.block * dev.blockSize) dev.blockSize with hslice
  have hload := h.loadTemp hsmall htemp hblock
  have hnneg : ¬ (dev.loadTemp t).1 < 0 := by
    rw [hload]
    exact int16_not_neg_of_lt hsmall
  have hlen' : (FlatArray.splice block pos bytes).length = dev.blockSize := by
    rw [length_splice (by omega), hlen]
  obtain ⟨s', hstore, hcontents⟩ := h.storeTemp hsmall
    (t := { t with temp := FlatArray.splice block pos bytes }) hlen' hblock
  refine ⟨FlatArray.splice block pos bytes, s', ?_, hlen', ?_⟩
  · rw [Blkdev.patchBlock, andThen_of_not_neg hnneg, hload]
    exact hstore
  · rw [hcontents]
    exact splice_slice_splice hbytes (h.block_end t.state hblock)

theorem Backs.writeFirst (h : dev.Backs contents) {offset total : ℕ} (hm : dev.Movable offset total)
    (s : σ) {temp : List UInt8} (buf : List UInt8) (htemp : temp.length = dev.blockSize) :
    ¬ (dev.writeFirst offset (dev.start s temp buf offset total)).1 < 0 ∧
      dev.WriteDone contents s buf offset total
        (dev.writeFirst offset (dev.start s temp buf offset total)).2 := by
  have hblock := h.start_block hm.range s temp buf
  set t := dev.start s temp buf offset total with ht
  rw [Blkdev.writeFirst]
  split_ifs with hpart
  · obtain ⟨hlt, hpos⟩ := h.positioned_first hm (t := t) htemp rfl rfl hblock hpart
    have hmod := Nat.mod_lt offset h.blockSize_pos
    -- The block is read, patched and written back; the patch begins at the offset.
    have hoffset : t.block * dev.blockSize + offset % dev.blockSize = offset := by
      rw [hblock, Nat.mul_comm]
      exact Nat.div_add_mod offset dev.blockSize
    set tocopy := min (dev.blockSize - offset % dev.blockSize) t.len with htocopy
    have hbytes : offset % dev.blockSize + (slice t.buf t.bytes tocopy).length ≤ dev.blockSize := by
      have hle : (slice t.buf t.bytes tocopy).length ≤ tocopy := List.length_take_le _ _
      omega
    obtain ⟨temp', s', hpatch, htemp', hcontents⟩ := h.patchBlock hm.small (t := t) htemp hlt hbytes
    have hnneg : ¬ (dev.patchBlock (offset % dev.blockSize) (slice t.buf t.bytes tocopy) t).1 < 0 := by
      rw [hpatch]
      exact int16_not_neg_of_lt hm.small
    dsimp only
    rw [andThen_of_not_neg hnneg, hpatch]
    refine ⟨int16_not_neg_of_lt hm.small, ⟨htemp', hpos.sum, hpos.aligned⟩, ?_, rfl⟩
    rw [hoffset] at hcontents
    simpa [Transfer.advance, ht, start, slice, htocopy] using hcontents
  · exact ⟨(by decide : ¬ (0 : Int16) < 0), positioned_start htemp rfl rfl hblock (not_not.mp hpart),
      by simp [ht, start], rfl⟩

theorem WriteDone.middle {s : σ} {buf : List UInt8} {offset total : ℕ} {t : Transfer σ}
    (ht : dev.WriteDone contents s buf offset total t) (h : dev.Backs contents)
    (hm : dev.Movable offset total) (hbuf : total ≤ buf.length) :
    ¬ (dev.writeMiddle t).1 < 0 ∧ dev.WriteDone contents s buf offset total (dev.writeMiddle t).2 ∧
      (dev.writeMiddle t).2.len < dev.blockSize := by
  obtain ⟨hpos, hlen⟩ := ht.advance h hm
  obtain ⟨hbytes, hcount⟩ := ht.middle_lt hm
  have hroom : dev.blockSize * (t.len / dev.blockSize) ≤ (t.buf.drop t.bytes).length := by
    have hsum := ht.sum
    have hle := Nat.mul_div_le t.len dev.blockSize
    rw [ht.buf, List.length_drop]
    omega
  -- The whole blocks are written from the buffer, behind what was written so far.
  obtain ⟨s', hwrite, hcontents⟩ := h.writeBlock t.state (ht.blocks_le h hm) hcount hroom
  have hstate : contents s' = FlatArray.splice (contents s) offset
      (buf.take (t.bytes + dev.blockSize * (t.len / dev.blockSize))) := by
    rw [← ht.splice h hm hbuf, hcontents, ht.buf]
    rcases ht.aligned with hzero | haligned
    · simp [hzero]
    · rw [haligned, slice]
  -- The driver returns their bytes, and the check of the count passes.
  have hmiddle : dev.writeMiddle t = (Int16.ofNat (dev.blockSize * (t.len / dev.blockSize)),
      { t with state := s' }.advance (dev.blockSize * (t.len / dev.blockSize))
        (t.len / dev.blockSize)) := by
    rw [writeMiddle, ← h.size]
    dsimp only
    rw [toUint_of_lt hcount, hwrite]
    exact andThen_checkCount hbytes _
  rw [hmiddle]
  dsimp only [Transfer.advance] at hpos hlen ⊢
  refine ⟨?_, ⟨⟨?_, ?_, ?_⟩, ?_, ?_⟩, ?_⟩
  · exact int16_not_neg_of_lt hbytes
  · exact hpos.temp
  · exact hpos.sum
  · exact hpos.aligned
  · exact hstate
  · exact ht.buf
  · exact hlen

theorem WriteDone.last {s : σ} {buf : List UInt8} {offset total : ℕ} {t : Transfer σ} {err : Int16}
    (ht : dev.WriteDone contents s buf offset total t) (h : dev.Backs contents)
    (hm : dev.Movable offset total) (hbuf : total ≤ buf.length) (herr : ¬ err < 0)
    (hlen : t.len < dev.blockSize) :
    ¬ (dev.writeLast err t).1 < 0 ∧ (dev.writeLast err t).2.bytes = total ∧
      contents (dev.writeLast err t).2.state =
        FlatArray.splice (contents s) offset (buf.take total) := by
  rw [writeLast]
  have hsum := ht.sum
  split_ifs with hpos
  · have hlt := ht.block_lt hm hpos
    have hbytes : 0 + (slice t.buf t.bytes t.len).length ≤ dev.blockSize := by
      have hle : (slice t.buf t.bytes t.len).length ≤ t.len := List.length_take_le _ _
      omega
    obtain ⟨temp', s', hpatch, -, hcontents⟩ := h.patchBlock hm.small ht.temp hlt hbytes
    have hnneg : ¬ (dev.patchBlock 0 (slice t.buf t.bytes t.len) t).1 < 0 := by
      rw [hpatch]
      exact int16_not_neg_of_lt hm.small
    rw [andThen_of_not_neg hnneg, hpatch]
    refine ⟨int16_not_neg_of_lt hm.small, hsum, ?_⟩
    dsimp only
    rw [hcontents, Nat.add_zero, ht.aligned.resolve_left hpos.ne', ht.buf, ht.splice h hm hbuf, hsum]
  · have hbytes : t.bytes = total := by omega
    exact ⟨herr, hbytes, hbytes ▸ ht.state⟩

/-- **The phases of a write** move one range. -/
theorem Backs.defaultWrite (h : dev.Backs contents) {offset total : ℕ} (hm : dev.Movable offset total)
    (s : σ) {temp buf : List UInt8} (htemp : temp.length = dev.blockSize) (hbuf : total ≤ buf.length) :
    (dev.blkDefaultWrite s (some temp) buf offset total).1 = Int16.ofNat total ∧
      contents (dev.blkDefaultWrite s (some temp) buf offset total).2 =
        FlatArray.splice (contents s) offset (buf.take total) := by
  obtain ⟨hfirst, hdone⟩ := h.writeFirst hm s buf htemp
  obtain ⟨hmiddle, hdone', hlen⟩ := hdone.middle h hm hbuf
  obtain ⟨hlast, hbytes, hcontents⟩ := hdone'.last h hm hbuf hmiddle hlen
  simp only [blkDefaultWrite]
  rw [phases_eq hfirst hmiddle, result_of_not_neg hlast, hbytes]
  exact ⟨rfl, hcontents⟩

end Blkdev

end I80k.Kernel

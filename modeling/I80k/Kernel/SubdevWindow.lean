import I80k.Kernel.Subdev

/-!
# A subdevice as a window on its parent

A request to a subdevice is cut to its size, moved by the offset of the subdevice, and then cut to the size
of the parent. For a subdevice inside of its parent the second cut does nothing, and the request is the one
of the flat array at the offset. Blocks always are moved this way. Bytes are moved this way where the parent
moves its own bytes: a range that ends past `2 ^ 31` is cut by neither device.

## Main definitions

* `Blkdev.windowLen`, `Blkdev.windowCount`: what is left of a range of bytes, or of blocks
* `Blkdev.ReadsWindow`, `Blkdev.WritesWindow`: bytes are moved as those of the parent at the offset
* `Blkdev.ReadsWindowBlocks`, `Blkdev.WritesWindowBlocks`: and so are blocks

## Main results

* `Blkdev.Backs.readsWindow_iff`, `Blkdev.Backs.writesWindow_iff`
* `subdev_window_iff`: when a subdevice is a window on its parent
-/

namespace I80k.Kernel

open FlatArray

namespace Blkdev

variable {σ : Type} {dev : Blkdev σ} {contents : σ → List UInt8} {start size : ℕ}

/-- The number of bytes of a range that are on a subdevice of `size` blocks. -/
def windowLen (dev : Blkdev σ) (size offset len : ℕ) : ℕ := min len (size * dev.blockSize - offset)

/-- The number of blocks of a range that are on a subdevice of `size` blocks. -/
def windowCount (size block count : ℕ) : ℕ := min count (size - block)

/-- `blk_read` on the subdevice returns the number of bytes in the window, and copies those of the parent
to the beginning of the buffer. -/
def ReadsWindow (dev : Blkdev σ) (contents : σ → List UInt8) (start size : ℕ) (s : σ)
    (temp buf : List UInt8) (offset len : ℕ) : Prop :=
  let n := dev.windowLen size offset len
  let r := (dev.blkDevAdd.blksubdev start size).dev.blkRead s (some temp) buf offset len
  r.1.toInt = n ∧ r.2 = splice buf 0 (slice (contents s) (start * dev.blockSize + offset) n)

/-- `blk_write` on the subdevice returns the number of bytes in the window, and changes those of the
parent, and no others, to the beginning of the buffer. -/
def WritesWindow (dev : Blkdev σ) (contents : σ → List UInt8) (start size : ℕ) (s : σ)
    (temp buf : List UInt8) (offset len : ℕ) : Prop :=
  let n := dev.windowLen size offset len
  ∃ r, (dev.blkDevAdd.blksubdev start size).dev.blkWrite s (some temp) buf offset len = some r ∧
    r.1.toInt = n ∧ contents r.2 = splice (contents s) (start * dev.blockSize + offset) (buf.take n)

/-- `blk_read_block` on the subdevice, in the same way. -/
def ReadsWindowBlocks (dev : Blkdev σ) (contents : σ → List UInt8) (start size : ℕ) (s : σ)
    (buf : List UInt8) (block count : ℕ) : Prop :=
  let n := windowCount size block count * dev.blockSize
  let r := (dev.blkDevAdd.blksubdev start size).dev.blkReadBlock s buf 0 block count
  r.1.toInt = n ∧ r.2 = splice buf 0 (slice (contents s) ((start + block) * dev.blockSize) n)

/-- `blk_write_block` on the subdevice, in the same way. -/
def WritesWindowBlocks (dev : Blkdev σ) (contents : σ → List UInt8) (start size : ℕ) (s : σ)
    (buf : List UInt8) (block count : ℕ) : Prop :=
  let n := windowCount size block count * dev.blockSize
  let r := (dev.blkDevAdd.blksubdev start size).dev.blkWriteBlock s buf block count
  r.1.toInt = n ∧ contents r.2 = splice (contents s) ((start + block) * dev.blockSize) (buf.take n)

/-! ## The window on the parent -/

/-- The window ends where the parent does, at the latest. -/
theorem window_le (hinside : start + size ≤ dev.blockCount) :
    start * dev.blockSize + size * dev.blockSize ≤ dev.blockSize * dev.blockCount := by
  rw [← Nat.add_mul, Nat.mul_comm dev.blockSize]
  exact Nat.mul_le_mul_right _ hinside

/-- The size of the subdevice is an `off_t`. -/
theorem Backs.window_total (h : dev.Backs contents) (hinside : start + size ≤ dev.blockCount) :
    (dev.blkDevAdd.blksubdev start size).dev.blockSize *
      (dev.blkDevAdd.blksubdev start size).dev.blockCount < 2 ^ 31 := by
  have htotal := h.total
  have hle := window_le hinside
  show dev.blockSize * size < 2 ^ 31
  rw [Nat.mul_comm]
  omega

theorem flatLen_blksubdev (offset len : ℕ) :
    (dev.blkDevAdd.blksubdev start size).dev.flatLen offset len = dev.windowLen size offset len := by
  show min len (dev.blockSize * size - offset) = _
  rw [windowLen, Nat.mul_comm]

/-- A byte of the window is at its place on the parent. -/
theorem Backs.subdevByte_eq (h : dev.Backs contents) (hinside : start + size ≤ dev.blockCount)
    {offset len : ℕ} (hsome : dev.windowLen size offset len ≠ 0) :
    subdevByte dev.blockSize start offset = start * dev.blockSize + offset := by
  have htotal := h.total
  have hle := window_le hinside
  rw [windowLen] at hsome
  unfold subdevByte
  rw [toUint32_of_lt (by omega : start * dev.blockSize < 2 ^ 32), toUint32_of_lt (by omega)]
  omega

/-- The bytes of the window are bytes of the parent. -/
theorem window_range (hinside : start + size ≤ dev.blockCount) {offset len : ℕ}
    (hsome : dev.windowLen size offset len ≠ 0) :
    start * dev.blockSize + offset + dev.windowLen size offset len ≤ dev.blockSize * dev.blockCount := by
  have hle := window_le hinside
  rw [windowLen] at *
  omega

/-! ## Bytes -/

/-- A read of the subdevice is one of the parent. -/
theorem Backs.blkRead_blksubdev (h : dev.Backs contents) (hinside : start + size ≤ dev.blockCount)
    (s : σ) (temp : Option (List UInt8)) (buf : List UInt8) {offset len : ℕ}
    (hsome : dev.windowLen size offset len ≠ 0) :
    (dev.blkDevAdd.blksubdev start size).dev.blkRead s temp buf offset len =
      if (dev.blkDevAdd.blksubdev start size).dev.blkTrimRange offset len = 0 then (0, buf)
      else dev.blkDevAdd.blkRead s temp buf (start * dev.blockSize + offset)
        ((dev.blkDevAdd.blksubdev start size).dev.blkTrimRange offset len) := by
  rw [← h.subdevByte_eq hinside hsome]
  rfl

/-- A write to the subdevice is one to the parent. -/
theorem Backs.blkWrite_blksubdev (h : dev.Backs contents) (hinside : start + size ≤ dev.blockCount)
    (s : σ) (temp : Option (List UInt8)) (buf : List UInt8) {offset len : ℕ}
    (hsome : dev.windowLen size offset len ≠ 0) :
    (dev.blkDevAdd.blksubdev start size).dev.blkWrite s temp buf offset len =
      if (dev.blkDevAdd.blksubdev start size).dev.blkTrimRange offset len = 0 then some (0, s)
      else some ((dev.blkDevAdd.blkWrite s temp buf (start * dev.blockSize + offset)
        ((dev.blkDevAdd.blksubdev start size).dev.blkTrimRange offset len)).getD (errInval, s)) := by
  rw [← h.subdevByte_eq hinside hsome]
  rfl

/-- A range of the parent that ends on it, and below `2 ^ 31`, is not cut again. -/
theorem Backs.trimRange_inside (h : dev.Backs contents) {offset n : ℕ} (hn : n < 2 ^ 16)
    (hrange : offset + n ≤ dev.blockSize * dev.blockCount) : dev.blkTrimRange offset n = n := by
  have htotal := h.total
  have hflat : dev.flatLen offset n = n := by
    rw [flatLen]
    omega
  rw [trimRange htotal hn (Or.inr (by omega)), hflat]

/-- What the parent is asked for when the subdevice did not cut the range, it does not cut either. -/
theorem Backs.trimRange_again (h : dev.Backs contents) (hinside : start + size ≤ dev.blockCount)
    {offset len : ℕ} (hlen : len < 2 ^ 16) (hsome : dev.windowLen size offset len ≠ 0)
    (hsum : 2 ^ 31 ≤ offset + len) : dev.blkTrimRange (start * dev.blockSize + offset) len = len := by
  have htotal := h.total
  have hle := window_le hinside
  have hflat : dev.flatLen (start * dev.blockSize + offset) len ≠ 0 := by
    rw [windowLen] at hsome
    rw [flatLen]
    omega
  have hoffset : start * dev.blockSize + offset < 2 ^ 31 := by
    rw [windowLen] at hsome
    omega
  exact (trimRange_wrap htotal hoffset hlen hflat (by omega)).1

/-- The ranges of bytes that are moved as those of the parent. -/
def FlatWindow (dev : Blkdev σ) (size offset len : ℕ) : Prop :=
  dev.windowLen size offset len = 0 ∨ offset + len < 2 ^ 31 ∧ dev.blockShift ≤ 14

/-- The cut of a range below `2 ^ 31`. -/
theorem Backs.windowTrim (h : dev.Backs contents) (hinside : start + size ≤ dev.blockCount)
    {offset len : ℕ} (hlen : len < 2 ^ 16)
    (hsum : dev.windowLen size offset len = 0 ∨ offset + len < 2 ^ 31) :
    (dev.blkDevAdd.blksubdev start size).dev.blkTrimRange offset len = dev.windowLen size offset len := by
  rw [← @flatLen_blksubdev σ dev start size] at hsum ⊢
  exact trimRange (h.window_total hinside) hlen hsum

/-- The range of a request to the parent: the window's part of it, with a block that is too big for an
`int`, or one that is too long. -/
theorem Backs.not_flatWindow (h : dev.Backs contents) (hinside : start + size ≤ dev.blockCount)
    {offset len : ℕ} (hoffset : offset < 2 ^ 31) (hlen : len < 2 ^ 16)
    (hn : dev.windowLen size offset len < 2 ^ 15) (hflat : ¬ dev.FlatWindow size offset len) (s : σ)
    (temp buf : List UInt8) :
    ∃ k ≠ 0, (dev.blkDevAdd.blksubdev start size).dev.blkTrimRange offset len = k ∧
      dev.blkTrimRange (start * dev.blockSize + offset) k = k ∧
      (dev.blkDefaultRead s (some temp) buf (start * dev.blockSize + offset) k).1.toInt ≠
        dev.windowLen size offset len ∧
      (dev.blkDefaultWrite s (some temp) buf (start * dev.blockSize + offset) k).1.toInt ≠
        dev.windowLen size offset len := by
  obtain ⟨hsome, hcond⟩ := not_or.mp hflat
  have hneg : ∀ {x : Int16}, x < 0 → x.toInt ≠ dev.windowLen size offset len := by
    intro x hx
    have := int16_toInt_neg hx
    omega
  by_cases hsum : offset + len < 2 ^ 31
  · -- The window's part of the range: the driver's result is negative.
    have hbig := h.readsCounted.blockSize_eq fun hshift => hcond ⟨hsum, hshift⟩
    have hpos : 0 < dev.windowLen size offset len := by omega
    have hrange := window_range hinside hsome
    refine ⟨_, hsome, h.windowTrim hinside hlen (Or.inr hsum), h.trimRange_inside (by omega) hrange, ?_, ?_⟩
    · exact hneg (h.readsCounted.defaultRead_neg hbig hpos hn hrange s temp buf)
    · exact hneg (h.readsCounted.defaultWrite_neg hbig hpos hn hrange s temp buf)
  · -- The whole range: the parent moves all of it, or fails.
    rw [← @flatLen_blksubdev σ dev start size] at hsome hn hneg ⊢
    obtain ⟨htrim, hlt⟩ := trimRange_wrap (h.window_total hinside) hoffset hlen hsome (by omega)
    rw [flatLen_blksubdev] at hsome hn hneg hlt
    have hother : (Int16.ofNat len).toInt ≠ dev.windowLen size offset len :=
      int16_toInt_ne hn (by omega) (by omega)
    rw [flatLen_blksubdev]
    refine ⟨len, by omega, htrim, h.trimRange_again hinside hlen hsome (by omega), ?_, ?_⟩
    · rcases defaultRead_result h.size s temp buf (start * dev.blockSize + offset) len with hres | hres
      · exact hneg hres
      · rw [hres]
        exact hother
    · rcases defaultWrite_result h.size s temp buf (start * dev.blockSize + offset) len with hres | hres
      · exact hneg hres
      · rw [hres]
        exact hother

theorem Backs.window_movable (h : dev.Backs contents) (hinside : start + size ≤ dev.blockCount)
    {offset len : ℕ} (hsome : dev.windowLen size offset len ≠ 0)
    (hn : dev.windowLen size offset len < 2 ^ 15) (hshift : dev.blockShift ≤ 14) :
    dev.Movable (start * dev.blockSize + offset) (dev.windowLen size offset len) := by
  refine ⟨?_, window_range hinside hsome, hn⟩
  rw [h.size]
  exact Nat.pow_lt_pow_right (by norm_num) (by omega)

theorem Backs.readsWindow_iff (h : dev.Backs contents) (hinside : start + size ≤ dev.blockCount) (s : σ)
    {temp buf : List UInt8} {offset len : ℕ} (htemp : temp.length = dev.blockSize)
    (hoffset : offset < 2 ^ 31) (hlen : len < 2 ^ 16) (hn : dev.windowLen size offset len < 2 ^ 15) :
    dev.ReadsWindow contents start size s temp buf offset len ↔ dev.FlatWindow size offset len := by
  constructor
  · intro hreads
    by_contra hflat
    have hsome := (not_or.mp hflat).1
    obtain ⟨k, hk, htrim, hsame, hread, -⟩ := h.not_flatWindow hinside hoffset hlen hn hflat s temp buf
    have hres := hreads.1
    rw [h.blkRead_blksubdev hinside s _ buf hsome, htrim, if_neg hk, h.blkRead_eq, hsame, if_neg hk] at hres
    exact hread hres
  · intro hflat
    have htrim := h.windowTrim hinside hlen (hflat.imp id And.left)
    unfold ReadsWindow
    by_cases hzero : dev.windowLen size offset len = 0
    · -- Nothing of the range is in the window, and the parent is not asked.
      have hread : (dev.blkDevAdd.blksubdev start size).dev.blkRead s (some temp) buf offset len =
          (0, buf) := if_pos (htrim.trans hzero)
      rw [hread, hzero]
      simp
    · have hrange := window_range hinside hzero
      have hm := h.window_movable hinside hzero hn (hflat.resolve_left hzero).2
      rw [h.blkRead_blksubdev hinside s _ buf hzero, htrim, if_neg hzero, h.blkRead_eq,
        h.trimRange_inside (by omega) hrange, if_neg hzero, h.defaultRead hm s buf htemp]
      exact ⟨int16_toInt_of_lt hn, rfl⟩

theorem Backs.writesWindow_iff (h : dev.Backs contents) (hinside : start + size ≤ dev.blockCount) (s : σ)
    {temp buf : List UInt8} {offset len : ℕ} (htemp : temp.length = dev.blockSize)
    (hoffset : offset < 2 ^ 31) (hlen : len < 2 ^ 16) (hn : dev.windowLen size offset len < 2 ^ 15)
    (hbuf : dev.windowLen size offset len ≤ buf.length) :
    dev.WritesWindow contents start size s temp buf offset len ↔ dev.FlatWindow size offset len := by
  constructor
  · rintro ⟨r, hwrite, hres, -⟩
    -- Neither of the two trims cuts the range, and the transfer fails on the parent.
    by_contra hflat
    have hsome := (not_or.mp hflat).1
    obtain ⟨k, hk, htrim, hsame, -, hwrite'⟩ := h.not_flatWindow hinside hoffset hlen hn hflat s temp buf
    rw [h.blkWrite_blksubdev hinside s _ buf hsome, htrim, if_neg hk, h.blkWrite_eq, hsame, if_neg hk,
      Option.getD_some, Option.some.injEq] at hwrite
    rw [hwrite] at hwrite'
    exact hwrite' hres
  · intro hflat
    have htrim := h.windowTrim hinside hlen (hflat.imp id And.left)
    unfold WritesWindow
    by_cases hzero : dev.windowLen size offset len = 0
    · have hwrite : (dev.blkDevAdd.blksubdev start size).dev.blkWrite s (some temp) buf offset len =
          some (0, s) := if_pos (htrim.trans hzero)
      rw [hwrite, hzero]
      exact ⟨(0, s), rfl, by simp, by simp⟩
    · -- The subdevice has cut the range, and the parent leaves it.
      have hrange := window_range hinside hzero
      have hm := h.window_movable hinside hzero hn (hflat.resolve_left hzero).2
      obtain ⟨hres, hcontents⟩ := h.defaultWrite hm s htemp hbuf
      rw [h.blkWrite_blksubdev hinside s _ buf hzero, htrim, if_neg hzero, h.blkWrite_eq,
        h.trimRange_inside (by omega) hrange, if_neg hzero]
      refine ⟨_, rfl, ?_, hcontents⟩
      rw [Option.getD_some, hres]
      exact int16_toInt_of_lt hn

/-! ## Blocks -/

/-- A range of blocks is always cut to the window. -/
theorem Backs.windowBlockTrim (h : dev.Backs contents) (hinside : start + size ≤ dev.blockCount)
    {block count : ℕ} (hcount : count < 2 ^ 16) :
    (dev.blkDevAdd.blksubdev start size).dev.blkBlockTrimRange block count =
      windowCount size block count := by
  have hlt := h.blockCount_lt
  show (if size ≤ block then 0 else if count = 0 then 0
    else if size < toUint32 (block + count) then toUint (size - block) else count) = _
  unfold windowCount toUint toUint32
  split_ifs <;> omega

/-- The blocks of the window are blocks of the parent. -/
theorem windowCount_range (hinside : start + size ≤ dev.blockCount) {block count : ℕ}
    (hsome : windowCount size block count ≠ 0) :
    start + block + windowCount size block count ≤ dev.blockCount := by
  rw [windowCount] at *
  omega

/-- A block of the window is at its place on the parent. -/
theorem Backs.subdevBlock_eq (h : dev.Backs contents) (hinside : start + size ≤ dev.blockCount)
    {block count : ℕ} (hsome : windowCount size block count ≠ 0) :
    subdevBlock start block = start + block := by
  have hlt := h.blockCount_lt
  have hrange := windowCount_range hinside hsome
  rw [subdevBlock, toUint32_of_lt (by omega), Nat.add_comm]

/-- The driver of a registered device is the one it had. -/
theorem blkReadBlock_blkDevAdd (s : σ) (buf : List UInt8) (pos block count : ℕ) :
    dev.blkDevAdd.blkReadBlock s buf pos block count = dev.blkReadBlock s buf pos block count := rfl

theorem blkWriteBlock_blkDevAdd (s : σ) (buf : List UInt8) (block count : ℕ) :
    dev.blkDevAdd.blkWriteBlock s buf block count = dev.blkWriteBlock s buf block count := rfl

theorem Backs.readsWindowBlocks (h : dev.Backs contents) (hinside : start + size ≤ dev.blockCount) (s : σ)
    {buf : List UInt8} {block count : ℕ} (hcount : count < 2 ^ 16)
    (hn : windowCount size block count * dev.blockSize < 2 ^ 15) :
    dev.ReadsWindowBlocks contents start size s buf block count := by
  have htrim := @Backs.windowBlockTrim _ _ _ _ _ h hinside block count hcount
  simp only [ReadsWindowBlocks, Blkdev.blkReadBlock, htrim]
  by_cases hzero : windowCount size block count = 0
  · simp [hzero, blksubdev]
  · have hword : windowCount size block count < 2 ^ 16 := by
      rw [windowCount]
      omega
    -- A range of blocks inside of the parent is read as it is.
    have hread := h.readBlock s [] 0 (Or.inr (windowCount_range hinside hzero)) hword
    simp only [blksubdev, if_neg hzero]
    rw [subdevReadBlock, h.subdevBlock_eq hinside hzero, blkReadBlock_blkDevAdd, hread]
    rw [Nat.mul_comm dev.blockSize]
    refine ⟨int16_toInt_of_lt hn, ?_⟩
    simp [splice]

theorem Backs.writesWindowBlocks (h : dev.Backs contents) (hinside : start + size ≤ dev.blockCount) (s : σ)
    {buf : List UInt8} {block count : ℕ} (hcount : count < 2 ^ 16)
    (hn : windowCount size block count * dev.blockSize < 2 ^ 15)
    (hbuf : windowCount size block count * dev.blockSize ≤ buf.length) :
    dev.WritesWindowBlocks contents start size s buf block count := by
  have htrim := @Backs.windowBlockTrim _ _ _ _ _ h hinside block count hcount
  simp only [WritesWindowBlocks, Blkdev.blkWriteBlock, htrim]
  by_cases hzero : windowCount size block count = 0
  · simp [hzero, blksubdev]
  · have hword : windowCount size block count < 2 ^ 16 := by
      rw [windowCount]
      omega
    rw [Nat.mul_comm] at hbuf
    obtain ⟨s', hwrite, hcontents⟩ :=
      h.writeBlock s (Or.inr (windowCount_range hinside hzero)) hword hbuf
    simp only [blksubdev, if_neg hzero]
    rw [subdevWriteBlock, h.subdevBlock_eq hinside hzero, blkWriteBlock_blkDevAdd, hwrite]
    rw [Nat.mul_comm dev.blockSize] at hcontents ⊢
    exact ⟨int16_toInt_of_lt hn, hcontents⟩

end Blkdev

/-- **A subdevice is a window on its parent, exactly.** For a subdevice inside of a parent that is an ideal
store of blocks with the default functions: its blocks are read and written as those of the parent at its
offset; and its bytes are, if and only if none of the range is in the window, or the range ends below
`2 ^ 31` and the size of a block has 15 bits. -/
theorem subdev_window_iff {σ : Type} (dev : Blkdev σ) (contents : σ → List UInt8) (h : dev.Backs contents)
    (start size : ℕ) (hinside : start + size ≤ dev.blockCount) (s : σ) (temp buf : List UInt8)
    (htemp : temp.length = dev.blockSize) :
    (∀ offset len, offset < 2 ^ 31 → len < 2 ^ 16 → dev.windowLen size offset len ≤ 32767 →
      dev.windowLen size offset len ≤ buf.length →
      (dev.ReadsWindow contents start size s temp buf offset len ↔
        dev.windowLen size offset len = 0 ∨ offset + len < 2 ^ 31 ∧ dev.blockShift ≤ 14) ∧
      (dev.WritesWindow contents start size s temp buf offset len ↔
        dev.windowLen size offset len = 0 ∨ offset + len < 2 ^ 31 ∧ dev.blockShift ≤ 14)) ∧
    (∀ block count, count < 2 ^ 16 → Blkdev.windowCount size block count * dev.blockSize ≤ 32767 →
      Blkdev.windowCount size block count * dev.blockSize ≤ buf.length →
      dev.ReadsWindowBlocks contents start size s buf block count ∧
      dev.WritesWindowBlocks contents start size s buf block count) := by
  constructor
  · intro offset len hoffset hlen hn hbuf
    exact ⟨h.readsWindow_iff hinside s htemp hoffset hlen (by omega),
      h.writesWindow_iff hinside s htemp hoffset hlen (by omega) hbuf⟩
  · intro block count hcount hn hbuf
    exact ⟨h.readsWindowBlocks hinside s hcount (by omega),
      h.writesWindowBlocks hinside s hcount (by omega) hbuf⟩

/-- Two blocks in the middle of a disk of four. -/
theorem subdev_window_ramDisk :
    (ramDisk 4 4).Backs RamBytes.bytes ∧
      (ramDisk 4 4).WritesWindow RamBytes.bytes 1 2 ⟨List.replicate 64 0, rfl⟩ (List.replicate 16 0)
        (List.replicate 40 1) 30 40 ∧
      (ramDisk 4 4).WritesWindowBlocks RamBytes.bytes 1 2 ⟨List.replicate 64 0, rfl⟩
        (List.replicate 40 1) 1 40 := by
  have hback : (ramDisk 4 4).Backs RamBytes.bytes := backs_ramDisk (by norm_num) (by norm_num)
  obtain ⟨hbytes, hblocks⟩ := subdev_window_iff (ramDisk 4 4) RamBytes.bytes hback 1 2 (by decide)
    ⟨List.replicate 64 0, rfl⟩ (List.replicate 16 0) (List.replicate 40 1) (by decide)
  refine ⟨hback, ?_, ?_⟩
  · apply (hbytes 30 40 (by norm_num) (by norm_num) (by decide) (by decide)).2.mpr
    exact Or.inr (by decide)
  · exact (hblocks 1 40 (by norm_num) (by decide) (by decide)).2

/-- The last byte of a partition of all but one block of a disk of 512 bytes less than 2 GiB, with a length
that makes the sum wrap around: neither device cuts the range, and the read fails. -/
theorem not_readsWindow_wrap :
    (ramDisk 9 4194303).Backs RamBytes.bytes ∧ 1 + 4194302 ≤ (ramDisk 9 4194303).blockCount ∧
      (ramDisk 9 4194303).windowLen 4194302 2147482623 65535 = 1 ∧
      (((ramDisk 9 4194303).blkDevAdd.blksubdev 1 4194302).dev.blkRead
        ⟨List.replicate (2 ^ 9 * 4194303) 0, List.length_replicate⟩ (some (List.replicate 512 0))
        (List.replicate 65535 0) 2147482623 65535).1 = errIo ∧
      ¬ (ramDisk 9 4194303).ReadsWindow RamBytes.bytes 1 4194302
        ⟨List.replicate (2 ^ 9 * 4194303) 0, List.length_replicate⟩ (List.replicate 512 0)
        (List.replicate 65535 0) 2147482623 65535 := by
  have hback : (ramDisk 9 4194303).Backs RamBytes.bytes := backs_ramDisk (by norm_num) (by norm_num)
  have hone : (ramDisk 9 4194303).windowLen 4194302 2147482623 65535 = 1 := by decide
  have hread : (((ramDisk 9 4194303).blkDevAdd.blksubdev 1 4194302).dev.blkRead
      ⟨List.replicate (2 ^ 9 * 4194303) 0, List.length_replicate⟩ (some (List.replicate 512 0))
      (List.replicate 65535 0) 2147482623 65535).1 = errIo := by
    decide
  refine ⟨hback, by decide, hone, hread, fun h => ?_⟩
  have herr := h.1
  rw [hread, hone] at herr
  exact absurd herr (by decide)

end I80k.Kernel

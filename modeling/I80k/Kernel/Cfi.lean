import I80k.Lib.NorFlash
import I80k.Kernel.BlkdevTransfer
import I80k.Kernel.Page

/-!
# The flash driver

`cfi.c` drives a flash chip through far pointers into the memory that the chip is mapped at. A block is a
sector of the chip. To write one, the driver erases it and programs its bytes, each with a command of its
own, and waits after each command until two reads agree in the bit that toggles. Blocks are copied within
the segment that their address has, and an address goes over to another segment between blocks only.

## Main definitions

* `FlashMap`: a chip, and the address on the bus that it is mapped at
* `CfiDev.cfiGetBlockAddr`: the far pointer to a block
* `FlashMap.cfiToggleWait`, `FlashMap.cfiEraseBlock`, `FlashMap.cfiWriteByte`
* `CfiDev.cfiReadBlock`, `CfiDev.cfiWriteBlock`
* `FlashMap.cfiProbe`
* `CfiDev.Mapped`: the device is the chip

## Main results

* `CfiDev.Mapped.readBlock`, `CfiDev.Mapped.writeBlock`: what the functions of the device do
* `CfiDev.Mapped.backs`: the device is an array of bytes
* `cfiProbe_mapped`: the device that a probe registers
* `cfi_write_then_read`: what is written is read, and nothing else changes
-/

namespace I80k.Kernel

open NorFlash

/-! ## The chip on the bus -/

/-- A chip, and the address on the bus of its first byte. -/
structure FlashMap where
  chip : Chip
  start : ℕ

/-- The far pointer to the next byte. Its offset is a number of 16 bits. -/
def farNext (addr : ℕ) : ℕ := addr / 2 ^ 16 * 2 ^ 16 + toUint (addr + 1)

/-- `struct cfi_private`. -/
structure CfiPrivate where
  base : ℕ
  reg0 : ℕ
  reg1 : ℕ
  addr0 : ℕ
  addr1 : ℕ

/-- The private data for a chip at a base address, as `cfi_probe` fills it in. -/
def cfiPrivate (base : ℕ) : CfiPrivate where
  base := base
  reg0 := toUint32 (base + 0x5555)
  reg1 := toUint32 (base + 0x2AAA)
  addr0 := base
  addr1 := toUint32 (base + 1)

namespace FlashMap

variable (m : FlashMap)

/-- The address of the chip that a far pointer stands for. -/
def offset (addr : ℕ) : ℕ := (linear addr + (2 ^ 20 - m.start)) % 2 ^ 20

/-- `*addr = byte`. -/
def store (addr : ℕ) (byte : UInt8) (s : State) : State := m.chip.write s (m.offset addr) byte

/-- `*addr`. -/
def load (addr : ℕ) (s : State) : UInt8 × State := m.chip.read s (m.offset addr)

/-- The two reads of a turn of `cfi_toggle_wait`. -/
def loadTwice (addr : ℕ) (s : State) : (UInt8 × UInt8) × State :=
  let byte0 := m.load addr s
  let byte1 := m.load addr byte0.2
  ((byte0.1, byte1.1), byte1.2)

theorem busy_loadTwice_lt {addr : ℕ} {s : State}
    (h : (m.loadTwice addr s).1.1 &&& 0x40 ≠ (m.loadTwice addr s).1.2 &&& 0x40) :
    (m.loadTwice addr s).2.busy < s.busy := by
  have hbusy : s.busy ≠ 0 := Chip.busy_of_toggles h
  simp only [loadTwice, load, Chip.busy_read]
  omega

/-- `cfi_toggle_wait`. -/
def cfiToggleWait (addr : ℕ) (s : State) : State :=
  let r := m.loadTwice addr s
  if r.1.1 &&& 0x40 ≠ r.1.2 &&& 0x40 then cfiToggleWait addr r.2 else r.2
termination_by s.busy
decreasing_by exact m.busy_loadTwice_lt (by assumption)

/-- `cfi_erase_block`. -/
def cfiEraseBlock (pdev : CfiPrivate) (addr : ℕ) (s : State) : State :=
  let s := m.store pdev.reg0 0xAA s
  let s := m.store pdev.reg1 0x55 s
  let s := m.store pdev.reg0 0x80 s
  let s := m.store pdev.reg0 0xAA s
  let s := m.store pdev.reg1 0x55 s
  -- the last cycle has the address of the sector, and not that of a register
  let s := m.store addr 0x30 s
  m.cfiToggleWait addr s

/-- `cfi_write_byte`. -/
def cfiWriteByte (pdev : CfiPrivate) (addr : ℕ) (byte : UInt8) (s : State) : State :=
  let s := m.store pdev.reg0 0xAA s
  let s := m.store pdev.reg1 0x55 s
  let s := m.store pdev.reg0 0xA0 s
  let s := m.store addr byte s
  m.cfiToggleWait addr s

/-- `fmemcpy`, from the chip: the bytes that are copied. -/
def fmemcpy : ℕ → ℕ → State → List UInt8 × State
  | 0, _, s => ([], s)
  | n + 1, src, s =>
    let byte := m.load src s
    let rest := fmemcpy n (farNext src) byte.2
    (byte.1 :: rest.1, rest.2)

/-- `cfi_identity`: the identifiers of the vendor and of the chip. -/
def cfiIdentity (pdev : CfiPrivate) (s : State) : (UInt8 × UInt8) × State :=
  let s := m.store pdev.reg0 0xAA s
  let s := m.store pdev.reg1 0x55 s
  let s := m.store pdev.reg0 0x90 s
  -- the two reads are of the identifiers, and not of the contents
  let vendorId := m.load pdev.addr0 s
  let devId := m.load pdev.addr1 vendorId.2
  let s := m.store pdev.reg0 0xAA devId.2
  let s := m.store pdev.reg1 0x55 s
  let s := m.store pdev.reg0 0xF0 s
  ((vendorId.1, devId.1), s)

end FlashMap

/-! ## The device -/

/-- The fields of `struct blkdev` that the driver reads. -/
structure CfiDev where
  blockSize : ℕ
  blockShift : ℕ
  blockCount : ℕ
  drvData : Option CfiPrivate

/-- The variables of `cfi_write_block`, and the chip. -/
structure CfiWrite where
  bytesWritten : Int16
  buffer : List UInt8
  addr : ℕ
  flash : State

/-- The variables of `cfi_read_block`, with the bytes that are in the buffer, and the chip. -/
structure CfiRead where
  bytesRead : Int16
  buffer : List UInt8
  flash : State

namespace CfiDev

variable (dev : CfiDev) (m : FlashMap)

/-- `cfi_get_block_addr`. -/
def cfiGetBlockAddr (pdev : CfiPrivate) (block : ℕ) : ℕ :=
  let offset := toUint32 (block * dev.blockSize)
  -- 64 KiB are 4096 paragraphs, in the high word of a far pointer
  let offHigh := toUint32 ((offset &&& 0xffff0000) <<< 12)
  let offLow := offset &&& 0xffff
  toUint32 (pdev.base + offHigh + offLow)

/-- One turn of the loop of `cfi_read_block`. -/
def readTurn (pdev : CfiPrivate) (block : ℕ) (r : CfiRead) (i : ℕ) : CfiRead :=
  let bytes := m.fmemcpy dev.blockSize (dev.cfiGetBlockAddr pdev (toUint32 (block + i))) r.flash
  { bytesRead := r.bytesRead + Int16.ofNat dev.blockSize
    buffer := r.buffer ++ bytes.1
    flash := bytes.2 }

/-- `cfi_read_block`: the result, the bytes that are stored in the buffer, and the chip. -/
def cfiReadBlock (s : State) (block count : ℕ) : (Int16 × List UInt8) × State :=
  match dev.drvData with
  | none => ((errInval, []), s)
  | some pdev =>
    let r := (List.range count).foldl (dev.readTurn m pdev block) ⟨0, [], s⟩
    ((r.bytesRead, r.buffer), r.flash)

/-- One turn of the inner loop of `cfi_write_block`. -/
def writeTurn (pdev : CfiPrivate) (w : CfiWrite) : CfiWrite where
  bytesWritten := w.bytesWritten + 1
  buffer := w.buffer.tail
  addr := farNext w.addr
  flash := m.cfiWriteByte pdev w.addr (w.buffer.headD 0) w.flash

/-- One turn of the outer loop of `cfi_write_block`. -/
def writeBlockTurn (pdev : CfiPrivate) (block : ℕ) (w : CfiWrite) (i : ℕ) : CfiWrite :=
  let addr := dev.cfiGetBlockAddr pdev (toUint32 (block + i))
  let flash := m.cfiEraseBlock pdev addr w.flash
  (writeTurn m pdev)^[dev.blockSize] { w with addr := addr, flash := flash }

/-- `cfi_write_block`: the result, and the chip. -/
def cfiWriteBlock (s : State) (buf : List UInt8) (block count : ℕ) : Int16 × State :=
  match dev.drvData with
  | none => (errInval, s)
  | some pdev =>
    -- `addr` is set at the start of each turn
    let w := (List.range count).foldl (dev.writeBlockTurn m pdev block) ⟨0, buf, 0, s⟩
    (w.bytesWritten, w.flash)

end CfiDev

/-- `struct cfi_flash`. -/
structure CfiFlash where
  vendorId : UInt8
  chipId : UInt8
  baseAddr : ℕ
  sectorCount : ℕ
  sectorSize : ℕ
  sectorShift : ℕ

/-- `cfi_probe`: the device that is registered, if there is one. The board may have no flash, and each call
of `calloc` may fail. -/
def FlashMap.cfiProbe (m : FlashMap) (cfg : Option CfiFlash) (pdevMem bdevMem : Bool) (s : State) :
    Option CfiDev × State :=
  match cfg with
  | none => (none, s)
  | some cfg =>
    if ¬ pdevMem then (none, s)
    else
      let pdev := cfiPrivate cfg.baseAddr
      let r := m.cfiIdentity pdev s
      if cfg.vendorId ≠ r.1.1 ∨ cfg.chipId ≠ r.1.2 then (none, r.2)
      else if ¬ bdevMem then (none, r.2)
      else (some ⟨cfg.sectorSize, cfg.sectorShift, cfg.sectorCount, some pdev⟩, r.2)

/-! ## Addresses -/

/-- The chip at a base address: at the start of a segment, with its sectors within 1 MiB. -/
structure FlashMap.MappedAt (m : FlashMap) (base : ℕ) : Prop where
  base_lt : base < 2 ^ 32
  aligned : base % 2 ^ 16 = 0
  start : m.start = linear base

/-- The device is the chip: its blocks are the sectors, and its size is within 1 MiB. -/
structure CfiDev.Mapped (dev : CfiDev) (m : FlashMap) (base : ℕ) : Prop extends m.MappedAt base where
  drvData : dev.drvData = some (cfiPrivate base)
  fits : linear base + dev.blockSize * dev.blockCount ≤ 2 ^ 20
  sector : m.chip.sectorSize = dev.blockSize
  size : ∃ k ≤ 15, dev.blockSize = 2 ^ k

theorem linear_of_aligned {base k : ℕ} (haligned : base % 2 ^ 16 = 0) (hk : k < 2 ^ 16) :
    linear (base + k) = (linear base + k) % 2 ^ 20 := by
  rw [linear, linear]
  omega

namespace FlashMap

variable {m : FlashMap} {base : ℕ}

theorem offset_of_linear {addr a : ℕ} (h : linear addr = m.start + a) (hlt : m.start + a < 2 ^ 20) :
    m.offset addr = a := by
  rw [offset, h]
  omega

namespace MappedAt

variable (h : m.MappedAt base)

include h

theorem start_eq : m.start = base / 2 ^ 16 * 16 := by
  have hlt := h.base_lt
  have haligned := h.aligned
  rw [h.start, linear]
  omega

/-- Addresses of the first segment of the chip. -/
theorem offset_add {k : ℕ} (hk : k < 2 ^ 16) : m.offset (toUint32 (base + k)) = k := by
  have hlt := h.base_lt
  have haligned := h.aligned
  have hstart := h.start_eq
  rw [toUint32_of_lt (by omega), offset, linear_of_aligned haligned hk, ← h.start]
  omega

theorem reg0_mod : m.offset (cfiPrivate base).reg0 % 2 ^ 15 = 0x5555 := by
  rw [cfiPrivate, h.offset_add (by norm_num)]
  norm_num

theorem reg1_mod : m.offset (cfiPrivate base).reg1 % 2 ^ 15 = 0x2AAA := by
  rw [cfiPrivate, h.offset_add (by norm_num)]
  norm_num

end MappedAt

end FlashMap

/-- The bits of the segment. -/
theorem and_high {n : ℕ} (h : n < 2 ^ 32) : n &&& 0xffff0000 = n / 2 ^ 16 * 2 ^ 16 := by
  apply Nat.eq_of_testBit_eq
  intro i
  rw [Nat.testBit_and, show 0xffff0000 = (2 ^ 16 - 1) <<< 16 from rfl, Nat.testBit_shiftLeft,
    Nat.testBit_two_pow_sub_one, ← Nat.shiftRight_eq_div_pow, ← Nat.shiftLeft_eq, Nat.testBit_shiftLeft,
    Nat.testBit_shiftRight]
  rcases Nat.lt_or_ge i 16 with hi | hi
  · simp [Nat.not_le.mpr hi]
  · rw [Nat.add_sub_cancel' hi]
    rcases Nat.lt_or_ge i 32 with hi' | hi'
    · simp [hi, show i - 16 < 16 by omega]
    · simp [Nat.testBit_lt_two_pow (h.trans_le (Nat.pow_le_pow_right (by norm_num) hi'))]

theorem iterate_farNext {addr j : ℕ} (h : addr % 2 ^ 16 + j < 2 ^ 16) : farNext^[j] addr = addr + j := by
  induction j with
  | zero => rfl
  | succ j ih =>
    rw [Function.iterate_succ_apply', ih (by omega), farNext, toUint]
    omega

namespace CfiDev.Mapped

variable {dev : CfiDev} {m : FlashMap} {base : ℕ} (h : dev.Mapped m base)

include h

theorem blockSize_pos : 0 < dev.blockSize := by
  obtain ⟨n, -, hsize⟩ := h.size
  rw [hsize]
  exact Nat.two_pow_pos n

/-- A block ends within 1 MiB. -/
theorem block_le {block : ℕ} (hblock : block < dev.blockCount) :
    linear base + (block * dev.blockSize + dev.blockSize) ≤ 2 ^ 20 := by
  have hle : (block + 1) * dev.blockSize ≤ dev.blockCount * dev.blockSize := Nat.mul_le_mul_right _ hblock
  have hfits := h.fits
  rw [Nat.add_mul, Nat.one_mul] at hle
  rw [Nat.mul_comm] at hfits
  omega

/-- The far pointer to a block: a segment of 64 KiB of the chip, and the offset in it. -/
theorem getBlockAddr_eq {block : ℕ} (hblock : block < dev.blockCount) :
    dev.cfiGetBlockAddr (cfiPrivate base) block =
      base + block * dev.blockSize / 2 ^ 16 * 2 ^ 28 + block * dev.blockSize % 2 ^ 16 := by
  have hlt := h.base_lt
  have haligned := h.aligned
  have hpos := h.blockSize_pos
  have hle := h.block_le hblock
  rw [← h.start, h.start_eq] at hle
  have hoffset : toUint32 (block * dev.blockSize) = block * dev.blockSize := toUint32_of_lt (by omega)
  have hlow : block * dev.blockSize &&& 0xffff = block * dev.blockSize % 2 ^ 16 :=
    Nat.and_two_pow_sub_one_eq_mod _ 16
  rw [cfiGetBlockAddr, hoffset, and_high (by omega), hlow, Nat.shiftLeft_eq, cfiPrivate]
  simp only [toUint32]
  omega

/-- **The bytes of a block**: they are in the segment of its address. -/
theorem linear_getBlockAddr_add {block k : ℕ} (hblock : block < dev.blockCount) (hk : k < dev.blockSize) :
    farNext^[k] (dev.cfiGetBlockAddr (cfiPrivate base) block) =
        dev.cfiGetBlockAddr (cfiPrivate base) block + k ∧
      linear (dev.cfiGetBlockAddr (cfiPrivate base) block + k) = linear base + block * dev.blockSize + k := by
  have hlt := h.base_lt
  have haligned := h.aligned
  have hle := h.block_le hblock
  rw [← h.start, h.start_eq] at hle ⊢
  -- the size divides that of a segment, so that no block is in two of them
  have hlow : block * dev.blockSize % 2 ^ 16 + k < 2 ^ 16 := by
    obtain ⟨n, hn, hsize⟩ := h.size
    obtain ⟨c, hc⟩ : 2 ^ n ∣ 2 ^ 16 := Nat.pow_dvd_pow 2 (by omega)
    have hc' : 2 ^ 16 = dev.blockSize * c := by rw [hsize, hc]
    rw [hc', Nat.mul_comm block, Nat.mul_mod_mul_left]
    have hmod : block % c < c := Nat.mod_lt _ (Nat.pos_of_ne_zero (by rintro rfl; simp at hc))
    calc dev.blockSize * (block % c) + k
      _ < dev.blockSize * (block % c + 1) := by
        rw [Nat.mul_add, Nat.mul_one]
        omega
      _ ≤ dev.blockSize * c := Nat.mul_le_mul_left _ hmod
  rw [h.getBlockAddr_eq hblock]
  refine ⟨iterate_farNext (by omega), ?_⟩
  rw [linear]
  omega

/-- The address of a block on the bus. -/
theorem linear_getBlockAddr {block : ℕ} (hblock : block < dev.blockCount) :
    linear (dev.cfiGetBlockAddr (cfiPrivate base) block) = linear base + block * dev.blockSize := by
  exact (h.linear_getBlockAddr_add hblock h.blockSize_pos).2

theorem offset_getBlockAddr {block k : ℕ} (hblock : block < dev.blockCount) (hk : k < dev.blockSize) :
    m.offset (farNext^[k] (dev.cfiGetBlockAddr (cfiPrivate base) block)) = block * dev.blockSize + k := by
  obtain ⟨hnext, hlinear⟩ := h.linear_getBlockAddr_add hblock hk
  have hle := h.block_le hblock
  rw [hnext]
  refine FlashMap.offset_of_linear ?_ ?_
  · rw [hlinear, h.start, Nat.add_assoc]
  · rw [h.start]
    omega

end CfiDev.Mapped

/-! ## Commands -/

namespace FlashMap

variable {m : FlashMap} {base : ℕ} {f : ℕ → UInt8} {s : State}

/-- The wait ends, and the chip has done its work then. -/
theorem holds_cfiToggleWait (addr : ℕ) (hs : WillHold f s) : Holds f (m.cfiToggleWait addr s) := by
  -- along the reads, each of which brings the chip closer to the end of its work
  fun_induction cfiToggleWait m addr s with
  | case1 s r _ ih => exact ih (Chip.willHold_read (Chip.willHold_read hs _) _)
  | case2 s r hsame =>
    refine (Chip.willHold_read (Chip.willHold_read hs _) _).holds ?_
    exact Chip.done_of_not_toggles (not_not.mp hsame)

variable (h : m.MappedAt base)

include h

theorem holds_cfiEraseBlock (hs : Holds f s) (addr : ℕ) :
    Holds (eraseSector m.chip.sectorSize f (m.offset addr)) (m.cfiEraseBlock (cfiPrivate base) addr s) :=
  m.holds_cfiToggleWait addr (Chip.erase_eq h.reg0_mod h.reg1_mod hs (m.offset addr))

theorem holds_cfiWriteByte (hs : Holds f s) (addr : ℕ) (byte : UInt8) :
    Holds (programByte f (m.offset addr) byte) (m.cfiWriteByte (cfiPrivate base) addr byte s) :=
  m.holds_cfiToggleWait addr (Chip.program_eq h.reg0_mod h.reg1_mod hs (m.offset addr) byte)

omit h in
/-- A copy of bytes that are next to each other on the chip. -/
theorem fmemcpy_eq (hs : Holds f s) {n src a : ℕ} (hsrc : ∀ k < n, m.offset (farNext^[k] src) = a + k) :
    m.fmemcpy n src s = (window f a n, s) := by
  induction n generalizing src a with
  | zero => rfl
  | succ n ih =>
    have hfirst : m.load src s = (f a, s) := by
      rw [load, Chip.read_of_holds hs]
      exact congrArg (fun b => (f b, s)) (hsrc 0 (Nat.succ_pos n))
    have hrest : ∀ k < n, m.offset (farNext^[k] (farNext src)) = a + 1 + k := by
      intro k hk
      rw [← Function.iterate_succ_apply, hsrc (k + 1) (by omega)]
      omega
    rw [fmemcpy, hfirst]
    simp only [ih hrest, window_succ]

end FlashMap

/-! ## Blocks -/

/-- Between two points of `cfi_write_block`, the next `n` bytes of the buffer have been written to the
address `a` of the chip. -/
structure CfiWrite.Wrote (f : ℕ → UInt8) (a n : ℕ) (w w' : CfiWrite) : Prop where
  flash : Holds (overwrite f a (w.buffer.take n)) w'.flash
  buffer : w'.buffer = w.buffer.drop n
  bytesWritten : w'.bytesWritten = w.bytesWritten + Int16.ofNat n

theorem CfiWrite.Wrote.refl {f : ℕ → UInt8} {w : CfiWrite} (hs : Holds f w.flash) (a : ℕ) : Wrote f a 0 w w where
  flash := by
    rw [List.take_zero, overwrite_nil]
    exact hs
  buffer := rfl
  bytesWritten := (Int16.add_zero _).symm

theorem CfiWrite.Wrote.trans {f : ℕ → UInt8} {a k n : ℕ} {w w' w'' : CfiWrite} (h : Wrote f a k w w')
    (h' : Wrote (overwrite f a (w.buffer.take k)) (a + k) n w' w'') (hlen : k ≤ w.buffer.length) :
    Wrote f a (k + n) w w'' where
  flash := by
    have happend := overwrite_append f a (w.buffer.take k) ((w.buffer.drop k).take n)
    rw [List.length_take_of_le hlen, ← List.take_add] at happend
    rw [← happend, ← h.buffer]
    exact h'.flash
  buffer := by rw [h'.buffer, h.buffer, List.drop_drop]
  bytesWritten := by rw [h'.bytesWritten, h.bytesWritten, Int16.add_assoc, Int16.ofNat_add]

namespace CfiDev

variable {m : FlashMap} {base : ℕ}

/-- A byte that is written to an erased cell. -/
theorem wrote_writeTurn (h : m.MappedAt base) {f : ℕ → UInt8} {a : ℕ} {w : CfiWrite} (hs : Holds f w.flash)
    (haddr : m.offset w.addr = a) (herased : f a = 0xFF) (hlen : 0 < w.buffer.length) :
    w.Wrote f a 1 (writeTurn m (cfiPrivate base) w) where
  flash := by
    obtain ⟨byte, rest, hbuffer⟩ := List.exists_cons_of_length_pos hlen
    have hwrite := m.holds_cfiWriteByte h hs w.addr (w.buffer.headD 0)
    rw [haddr, programByte_of_erased herased, hbuffer] at hwrite
    rw [writeTurn, hbuffer]
    exact hwrite
  buffer := by rw [writeTurn, List.drop_one]
  bytesWritten := rfl

theorem addr_iterate_writeTurn (pdev : CfiPrivate) (n : ℕ) (w : CfiWrite) :
    ((writeTurn m pdev)^[n] w).addr = farNext^[n] w.addr := by
  induction n with
  | zero => rfl
  | succ n ih => rw [Function.iterate_succ_apply', Function.iterate_succ_apply', writeTurn, ih]

/-- Bytes that are written next to each other, to erased cells. -/
theorem wrote_iterate_writeTurn (h : m.MappedAt base) {f : ℕ → UInt8} {a n : ℕ} {w : CfiWrite}
    (hs : Holds f w.flash) (haddr : ∀ k < n, m.offset (farNext^[k] w.addr) = a + k)
    (herased : ∀ k < n, f (a + k) = 0xFF) (hlen : n ≤ w.buffer.length) :
    w.Wrote f a n ((writeTurn m (cfiPrivate base))^[n] w) := by
  induction n with
  | zero => exact .refl hs a
  | succ n ih =>
    have hbefore := ih (fun k hk => haddr k (by omega)) (fun k hk => herased k (by omega)) (by omega)
    rw [Function.iterate_succ_apply']
    refine hbefore.trans (wrote_writeTurn h hbefore.flash ?_ ?_ ?_) (by omega)
    · rw [addr_iterate_writeTurn]
      exact haddr n (Nat.lt_succ_self n)
    · -- the bytes before it do not touch the cell
      rw [overwrite_apply_of_outside (.inr ?_)]
      · exact herased n (Nat.lt_succ_self n)
      · rw [List.length_take_of_le (by omega)]
    · rw [hbefore.buffer, List.length_drop]
      omega

namespace Mapped

variable {dev : CfiDev} (h : dev.Mapped m base) {f : ℕ → UInt8}

include h

theorem toUint32_block {block i : ℕ} (hblock : block + i < dev.blockCount) : toUint32 (block + i) = block + i := by
  have hle := h.block_le hblock
  have hpos := Nat.le_mul_of_pos_right (block + i) h.blockSize_pos
  exact toUint32_of_lt (by omega)

/-- One block is erased and written. -/
theorem wrote_writeBlockTurn {block i : ℕ} {w : CfiWrite} (hs : Holds f w.flash)
    (hblock : block + i < dev.blockCount) (hlen : dev.blockSize ≤ w.buffer.length) :
    w.Wrote f ((block + i) * dev.blockSize) dev.blockSize
      (dev.writeBlockTurn m (cfiPrivate base) block w i) := by
  have haddr : ∀ k < dev.blockSize,
      m.offset (farNext^[k] (dev.cfiGetBlockAddr (cfiPrivate base) (block + i))) =
        (block + i) * dev.blockSize + k := fun k hk => h.offset_getBlockAddr hblock hk
  have herase := m.holds_cfiEraseBlock h.toMappedAt hs (dev.cfiGetBlockAddr (cfiPrivate base) (block + i))
  rw [show m.offset (dev.cfiGetBlockAddr (cfiPrivate base) (block + i)) = (block + i) * dev.blockSize from
    haddr 0 h.blockSize_pos, h.sector] at herase
  rw [writeBlockTurn, h.toUint32_block hblock]
  obtain ⟨hflash, hbuffer, hbytes⟩ :=
    wrote_iterate_writeTurn h.toMappedAt (w := { w with addr := _, flash := _ }) herase haddr
      (fun k hk => eraseSector_apply hk f) hlen
  refine ⟨?_, hbuffer, hbytes⟩
  -- all of the sector is written again, so nothing is left of the erasure
  rw [overwrite_eraseSector (List.length_take_of_le hlen) h.blockSize_pos] at hflash
  exact hflash

/-- The blocks are written one after the other. -/
theorem wrote_foldl {block count : ℕ} {w : CfiWrite} (hs : Holds f w.flash)
    (hin : block + count ≤ dev.blockCount) (hlen : dev.blockSize * count ≤ w.buffer.length) :
    w.Wrote f (block * dev.blockSize) (dev.blockSize * count)
      ((List.range count).foldl (dev.writeBlockTurn m (cfiPrivate base) block) w) := by
  induction count with
  | zero => exact .refl hs _
  | succ count ih =>
    rw [Nat.mul_succ] at hlen
    have hbefore := ih (by omega) (by omega)
    rw [List.range_succ, List.foldl_append, Nat.mul_succ]
    refine hbefore.trans ?_ (by omega)
    rw [Nat.mul_comm dev.blockSize, ← Nat.add_mul]
    refine h.wrote_writeBlockTurn ?_ (by omega) ?_
    · rw [Nat.mul_comm count]
      exact hbefore.flash
    · rw [hbefore.buffer, List.length_drop]
      omega

/-- **The write of blocks.** -/
theorem writeBlock {s : State} {buf : List UInt8} {block count : ℕ} (hs : Holds f s)
    (hin : block + count ≤ dev.blockCount) (hlen : dev.blockSize * count ≤ buf.length) :
    (dev.cfiWriteBlock m s buf block count).1 = Int16.ofNat (dev.blockSize * count) ∧
      Holds (overwrite f (block * dev.blockSize) (buf.take (dev.blockSize * count)))
        (dev.cfiWriteBlock m s buf block count).2 := by
  have hwrote := h.wrote_foldl (w := ⟨0, buf, 0, s⟩) hs hin hlen
  rw [cfiWriteBlock, h.drvData]
  exact ⟨hwrote.bytesWritten.trans (Int16.zero_add _), hwrote.flash⟩

/-- **The read of blocks.** -/
theorem readBlock {s : State} {block count : ℕ} (hs : Holds f s) (hin : block + count ≤ dev.blockCount) :
    dev.cfiReadBlock m s block count =
      ((Int16.ofNat (dev.blockSize * count), window f (block * dev.blockSize) (dev.blockSize * count)), s) := by
  have hloop : (List.range count).foldl (dev.readTurn m (cfiPrivate base) block) ⟨0, [], s⟩ =
      ⟨Int16.ofNat (dev.blockSize * count), window f (block * dev.blockSize) (dev.blockSize * count), s⟩ := by
    induction count with
    | zero => rfl
    | succ count ih =>
      -- the chip is as it was before, so the next block is read from the same contents
      have hlt : block + count < dev.blockCount := by omega
      have hcopy := FlashMap.fmemcpy_eq hs fun k hk => h.offset_getBlockAddr hlt hk
      rw [List.range_succ, List.foldl_append, ih (by omega), List.foldl_cons, List.foldl_nil, readTurn,
        h.toUint32_block hlt, hcopy]
      simp only [Nat.mul_succ, Int16.ofNat_add, Nat.add_mul, Nat.mul_comm count, window_add]
  rw [cfiReadBlock, h.drvData]
  simp only [hloop]

end Mapped

/-! ## The array of blocks -/

section Idle

variable {dev : CfiDev} (h : m.MappedAt base)

include h

theorem idle_writeTurn {w : CfiWrite} (hs : Holds w.flash.cells w.flash) :
    Holds (writeTurn m (cfiPrivate base) w).flash.cells (writeTurn m (cfiPrivate base) w).flash :=
  (m.holds_cfiWriteByte h hs w.addr (w.buffer.headD 0)).self

theorem idle_writeBlockTurn {w : CfiWrite} (hs : Holds w.flash.cells w.flash) (block i : ℕ) :
    Holds (dev.writeBlockTurn m (cfiPrivate base) block w i).flash.cells
      (dev.writeBlockTurn m (cfiPrivate base) block w i).flash := by
  rw [writeBlockTurn]
  refine Function.Iterate.rec (fun w : CfiWrite => Holds w.flash.cells w.flash) ?_ (fun w hw => ?_) _
  · exact (m.holds_cfiEraseBlock h hs _).self
  · exact idle_writeTurn h hw

/-- The chip waits for a command after each write, also of blocks that are not on the device. -/
theorem idle_cfiWriteBlock {s : State} (hs : Holds s.cells s) (hdata : dev.drvData = some (cfiPrivate base))
    (buf : List UInt8) (block count : ℕ) :
    Holds (dev.cfiWriteBlock m s buf block count).2.cells (dev.cfiWriteBlock m s buf block count).2 := by
  rw [cfiWriteBlock, hdata]
  exact List.foldlRecOn (motive := fun w : CfiWrite => Holds w.flash.cells w.flash) (List.range count) _ hs
    fun w hw i _ => idle_writeBlockTurn h hw block i

end Idle

/-- A chip that waits for a command. -/
def IdleFlash : Type := {s : State // Holds s.cells s}

/-- The device that `cfi_probe` registers, with the functions of the driver. -/
def blkdev (dev : CfiDev) (h : m.MappedAt base) (hdata : dev.drvData = some (cfiPrivate base)) :
    Blkdev IdleFlash where
  blockSize := dev.blockSize
  blockShift := dev.blockShift
  blockCount := dev.blockCount
  readBlock := some fun s block count => (dev.cfiReadBlock m s.1 block count).1
  writeBlock := some fun s buf block count =>
    ((dev.cfiWriteBlock m s.1 buf block count).1,
      ⟨(dev.cfiWriteBlock m s.1 buf block count).2, idle_cfiWriteBlock h s.2 hdata buf block count⟩)
  read := none
  write := none

/-- **The flash is an array of bytes** to the functions of `blkdev.c`. -/
theorem Mapped.backs {dev : CfiDev} (h : dev.Mapped m base) (hshift : dev.blockSize = 2 ^ dev.blockShift) :
    (dev.blkdev h.toMappedAt h.drvData).Backs
      (fun s => window s.1.cells 0 (dev.blockSize * dev.blockCount)) where
  size := hshift
  word := by
    obtain ⟨k, hk, hsize⟩ := h.size
    change dev.blockSize < 2 ^ 16
    rw [hsize]
    exact Nat.pow_lt_pow_right (by norm_num) (by omega)
  total := by
    have hfits := h.fits
    change dev.blockSize * dev.blockCount < 2 ^ 31
    omega
  length s := length_window _ 0 _
  reads := by
    refine ⟨_, rfl, fun s block count hin _ => ?_⟩
    have hle : block * dev.blockSize + dev.blockSize * count ≤ dev.blockSize * dev.blockCount := by
      rw [Nat.mul_comm block, ← Nat.mul_add]
      exact Nat.mul_le_mul_left _ hin
    exact (congrArg Prod.fst (h.readBlock s.2 hin)).trans (congrArg (Prod.mk _) (slice_window hle).symm)
  writes := by
    refine ⟨_, rfl, fun s buf block count hin _ hlen => ?_⟩
    obtain ⟨hresult, hflash⟩ := h.writeBlock s.2 hin hlen
    refine ⟨hresult, ?_⟩
    have htake : (buf.take (dev.blockSize * count)).length = dev.blockSize * count :=
      List.length_take_of_le hlen
    have hle : block * dev.blockSize + (buf.take (dev.blockSize * count)).length ≤
        dev.blockSize * dev.blockCount := by
      rw [htake, Nat.mul_comm block, ← Nat.mul_add]
      exact Nat.mul_le_mul_left _ hin
    exact (congrArg (window · 0 _) hflash.cells).trans (splice_window hle).symm
  default := ⟨rfl, rfl⟩

end CfiDev

/-! ## The probe -/

theorem FlashMap.cfiIdentity_eq {m : FlashMap} {base : ℕ} {f : ℕ → UInt8} {s : State} (h : m.MappedAt base)
    (hs : Holds f s) : m.cfiIdentity (cfiPrivate base) s = ((m.chip.vendor, m.chip.device), s) := by
  have hentry := Chip.identify_eq (c := m.chip) h.reg0_mod h.reg1_mod hs.mode hs.busy
  have hexit := Chip.exit_eq (c := m.chip) (s := { s with mode := .ready, identifies := true })
    h.reg0_mod h.reg1_mod rfl hs.busy
  have haddr0 : m.offset (cfiPrivate base).addr0 = 0 := by
    have hzero := h.offset_add (k := 0) (by norm_num)
    rw [Nat.add_zero, toUint32_of_lt h.base_lt] at hzero
    exact hzero
  have haddr1 : m.offset (cfiPrivate base).addr1 = 1 := h.offset_add (by norm_num)
  -- reads return the contents before the command and after the exit
  have hback : { s with mode := .ready, identifies := false } = s := by
    rw [← hs.mode, ← hs.identifies]
  simp only [cfiIdentity, store, load, hentry, haddr0, haddr1,
    Chip.read_of_done (s := { s with mode := .ready, identifies := true }) hs.busy, hexit, hback]
  rfl

/-- **The device that a probe registers** is the chip, and the chip waits for a command. -/
theorem cfiProbe_mapped {m : FlashMap} {cfg : CfiFlash} {f : ℕ → UInt8} {s : State}
    (h : m.MappedAt cfg.baseAddr) (hvendor : cfg.vendorId = m.chip.vendor) (hchip : cfg.chipId = m.chip.device)
    (hfits : linear cfg.baseAddr + cfg.sectorSize * cfg.sectorCount ≤ 2 ^ 20)
    (hsector : m.chip.sectorSize = cfg.sectorSize) (hsize : ∃ k ≤ 15, cfg.sectorSize = 2 ^ k) (hs : Holds f s) :
    ∃ dev, m.cfiProbe (some cfg) true true s = (some dev, s) ∧ dev.Mapped m cfg.baseAddr := by
  refine ⟨⟨cfg.sectorSize, cfg.sectorShift, cfg.sectorCount, some (cfiPrivate cfg.baseAddr)⟩, ?_,
    ⟨h, rfl, hfits, hsector, hsize⟩⟩
  simp [FlashMap.cfiProbe, FlashMap.cfiIdentity_eq h hs, hvendor, hchip]

/-! ## Round trips -/

/-- **A write and a read of blocks.** For a chip at the start of a segment, whose sectors are the blocks of
the device: each block has the address on the bus that it should have, what is written to blocks of the
device is what is then read from them, and every other byte of the chip stays as it is. -/
theorem cfi_write_then_read (dev : CfiDev) (m : FlashMap) (base : ℕ) (h : dev.Mapped m base) (s : State)
    (hs : Holds s.cells s) (buf : List UInt8) (block count : ℕ) (hin : block + count ≤ dev.blockCount)
    (hbuf : buf.length = dev.blockSize * count) :
    (∀ b < dev.blockCount,
      linear (dev.cfiGetBlockAddr (cfiPrivate base) b) = linear base + b * dev.blockSize) ∧
    (let written := (dev.cfiWriteBlock m s buf block count).2
      let read := dev.cfiReadBlock m written block count
      read.1.2 = buf ∧ read.2.cells = written.cells ∧
      ∀ a, a < block * dev.blockSize ∨ (block + count) * dev.blockSize ≤ a → written.cells a = s.cells a) := by
  obtain ⟨-, hflash⟩ := h.writeBlock hs hin hbuf.ge
  rw [← hbuf, List.take_length] at hflash
  refine ⟨fun b hb => h.linear_getBlockAddr hb, ?_⟩
  have hread := h.readBlock hflash hin
  rw [← hbuf, window_overwrite] at hread
  simp only [hread]
  refine ⟨trivial, trivial, fun a ha => ?_⟩
  rw [hflash.cells, overwrite_apply_of_outside]
  rw [hbuf, Nat.mul_comm dev.blockSize, ← Nat.add_mul]
  exact ha

/-- The flash of the board, of 32 sectors of 4 KiB, at the address `E000:0000`. -/
def romMap : FlashMap where
  chip := { sectorSize := 4096, vendor := 0xBF, device := 0xB5, duration := fun _ => 5 }
  start := 0xE0000

/-- Two blocks on both sides of the end of a segment, with bytes that are those of a command. -/
theorem cfi_write_then_read_rom :
    let dev : CfiDev := ⟨4096, 12, 32, some (cfiPrivate 0xE0000000)⟩
    let s : State := ⟨fun a => UInt8.ofNat a, .ready, false, 0, false⟩
    let written := (dev.cfiWriteBlock romMap s (List.replicate 8192 0xAA) 15 2).2
    (dev.cfiReadBlock romMap written 15 2).1.2 = List.replicate 8192 0xAA ∧ written.cells 0x5555 = 0x55 := by
  have hmapped : CfiDev.Mapped ⟨4096, 12, 32, some (cfiPrivate 0xE0000000)⟩ romMap 0xE0000000 :=
    ⟨⟨by norm_num, by norm_num, by norm_num [romMap, linear]⟩, rfl, by norm_num [linear], rfl, 12, by norm_num, by norm_num⟩
  obtain ⟨-, hread, -, hother⟩ := cfi_write_then_read ⟨4096, 12, 32, some (cfiPrivate 0xE0000000)⟩ romMap
    0xE0000000 hmapped ⟨fun a => UInt8.ofNat a, .ready, false, 0, false⟩ ⟨rfl, rfl, rfl, rfl⟩
    (List.replicate 8192 0xAA) 15 2 (by norm_num) List.length_replicate
  exact ⟨hread, hother 0x5555 (.inl (by norm_num))⟩

end I80k.Kernel

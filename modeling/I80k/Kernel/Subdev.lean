import I80k.Kernel.BlkdevFlat

/-!
# Partitions of a block device

`subdev.c`: the master boot record of a device is read, and each entry of its table that passes
`mbr_is_valid_entry` is registered as a device of its own, whose functions call those of the parent at an
offset. The table is what the disk holds, and is not to be trusted.

The end of a partition, `lba_start + lba_len`, is a number of 32 bits. A partition that ends past `2 ^ 32`
passes the test for its end, and its last blocks are mapped back to the first ones of the disk.

## Main definitions

* `MbrEntry`, `mbrEntry`: an entry, and the one at an index of the table in a sector
* `Blksubdev`: a subdevice; `Blkdev.blksubdev`: the one that is made of an entry
* `Blkdev.mbrIsValidEntry`, `Blkdev.mbrPublishDevice`, `Blkdev.mbrProbe`
* `Blksubdev.Inside`: a subdevice is a part of its parent

## Main results

* `Blkdev.mbrIsValidEntry_iff`: which entries are valid
* `mbr_probe_inside_iff`: when the partitions that are registered are inside of the disk
-/

namespace I80k.Kernel

open FlatArray

/-! ## The table -/

/-- `MBR_SIZE`. -/
def mbrSize : ℕ := 512

/-- `struct mbr_entry`, without the addresses by cylinder, head and sector, which nothing reads. -/
structure MbrEntry where
  status : UInt8
  type : UInt8
  lbaStart : UInt32
  lbaLen : UInt32
deriving DecidableEq

/-- `entries[index]`, with the table at byte 446 of the sector. -/
def mbrEntry (sector : List UInt8) (index : ℕ) : MbrEntry :=
  let entry := 446 + 16 * index
  { status := sector.getD entry 0
    type := sector.getD (entry + 4) 0
    lbaStart := UInt32.ofNat (le32 sector (entry + 8))
    lbaLen := UInt32.ofNat (le32 sector (entry + 12)) }

/-! ## Subdevices -/

/-- `struct blksubdev`. -/
structure Blksubdev (σ : Type) where
  /-- The device itself. -/
  dev : Blkdev σ
  /-- The parent device. -/
  parent : Blkdev σ
  /-- The first block of the subdevice on the parent. -/
  offset : ℕ

/-- `block + sdev->offset`, the block of the parent for a block of the subdevice. -/
def subdevBlock (offset block : ℕ) : ℕ := toUint32 (block + offset)

/-- `offset + sdev->offset * dev->block_size`, the byte of the parent for a byte of the subdevice. It is
converted to an `off_t`, here one that is not negative. -/
def subdevByte (blockSize start offset : ℕ) : ℕ := toUint32 (offset + toUint32 (start * blockSize))

namespace Blkdev

variable {σ : Type} (dev : Blkdev σ)

/-- `subdev_read_block`: the bytes that the parent reads. -/
def subdevReadBlock (start : ℕ) (state : σ) (block count : ℕ) : Int16 × List UInt8 :=
  dev.blkReadBlock state [] 0 (subdevBlock start block) count

/-- `subdev_write_block`. -/
def subdevWriteBlock (start : ℕ) (state : σ) (buf : List UInt8) (block count : ℕ) : Int16 × σ :=
  dev.blkWriteBlock state buf (subdevBlock start block) count

/-- `subdev_read`. -/
def subdevRead (start : ℕ) (state : σ) (temp : Option (List UInt8)) (buf : List UInt8)
    (offset len : ℕ) : Int16 × List UInt8 :=
  dev.blkRead state temp buf (subdevByte dev.blockSize start offset) len

/-- `subdev_write`. The parent has been registered, so that it has a function to write. -/
def subdevWrite (start : ℕ) (state : σ) (temp : Option (List UInt8)) (buf : List UInt8)
    (offset len : ℕ) : Int16 × σ :=
  (dev.blkWrite state temp buf (subdevByte dev.blockSize start offset) len).getD (errInval, state)

/-- The subdevice of `len` blocks from block `start` on, as `mbr_publish_device` fills it in. -/
def blksubdev (start len : ℕ) : Blksubdev σ where
  dev :=
    { blockSize := dev.blockSize
      blockShift := dev.blockShift
      blockCount := len
      readBlock := some (dev.subdevReadBlock start)
      writeBlock := some (dev.subdevWriteBlock start)
      read := some (dev.subdevRead start)
      write := some (dev.subdevWrite start) }
  parent := dev
  offset := start

/-! ## The probe -/

/-- The test of an entry. The sum is a `uint32_t`. -/
def mbrIsValidEntry (entry : MbrEntry) : Int16 :=
  if entry.type = 0 then errNoDev
  else if entry.status ≠ 0x80 ∧ entry.status ≠ 0x00 then errNoDev
  else if entry.lbaLen = 0 then errNoDev
  else if dev.blockCount ≤ entry.lbaStart.toNat then errInval
  else if dev.blockCount < (entry.lbaStart + entry.lbaLen).toNat then errInval
  else 0

/-- The result, and the subdevice that is registered if there is one. The two calls of `calloc` are for
the name and for the structure, and return memory or not. -/
def mbrPublishDevice (entry : MbrEntry) (calloc : Bool × Bool) : Int16 × Option (Blksubdev σ) :=
  if dev.mbrIsValidEntry entry < 0 then (errNoDev, none)
  else if ¬ calloc.1 then (errNoMem, none)
  else if ¬ calloc.2 then (errNoMem, none)
  else
    let subdev := dev.blksubdev entry.lbaStart.toNat entry.lbaLen.toNat
    (0, some { subdev with dev := subdev.dev.blkDevAdd })

/-- The sector that `mbr_probe` finds at the beginning of the device, or its error: `buf` and `temp` are the
memory for the sector and for the read. A probe without memory is not an error. -/
def mbrSector (state : σ) (buf temp : Option (List UInt8)) : Except Int16 (List UInt8) :=
  match buf with
  | none => .error 0
  | some buf =>
    let (len, buf) := dev.blkRead state temp buf 0 mbrSize
    if len ≠ Int16.ofNat mbrSize then .error (if len < 0 then len else errIo)
    else if buf.getD 510 0 ≠ 0x55 ∨ buf.getD 511 0 ≠ 0xaa then .error errIo
    else .ok buf

/-- The result, and the subdevices in the order in which they are registered. The errors for single
entries are dropped. -/
def mbrProbe (state : σ) (buf temp : Option (List UInt8)) (calloc : ℕ → Bool × Bool) :
    Int16 × List (Blksubdev σ) :=
  match dev.mbrSector state buf temp with
  | .error err => (err, [])
  | .ok sector =>
    (0, (List.range 4).filterMap fun i => (dev.mbrPublishDevice (mbrEntry sector i) (calloc i)).2)

/-! ## What is registered -/

/-- What an entry needs to be valid, but for its end. -/
def Candidate (entry : MbrEntry) : Prop :=
  entry.type ≠ 0 ∧ (entry.status = 0x80 ∨ entry.status = 0x00) ∧ entry.lbaLen ≠ 0 ∧
    entry.lbaStart.toNat < dev.blockCount

variable {dev}

/-- An entry is valid if the 32 low bits of its end are not past the end of the device. -/
theorem mbrIsValidEntry_iff {entry : MbrEntry} :
    ¬ dev.mbrIsValidEntry entry < 0 ↔
      dev.Candidate entry ∧ (entry.lbaStart + entry.lbaLen).toNat ≤ dev.blockCount := by
  have hdev : errNoDev < 0 := by decide
  have hinval : errInval < 0 := by decide
  unfold mbrIsValidEntry Candidate
  split_ifs with htype hstatus hlen hstart hend
  · simp [hdev, htype]
  · simp [hdev, hstatus]
  · simp [hdev, hlen]
  · simp only [hinval, not_true_eq_false, false_iff]
    omega
  · simp only [hinval, not_true_eq_false, false_iff]
    omega
  · have hstatus' : entry.status = 0x80 ∨ entry.status = 0x00 := by tauto
    simp only [show ¬ (0 : Int16) < 0 by decide, not_false_eq_true, true_iff]
    exact ⟨⟨htype, hstatus', hlen, by omega⟩, by omega⟩

/-- `blk_dev_add` leaves the functions of a subdevice alone. -/
theorem blkDevAdd_blksubdev {start len : ℕ} :
    { dev.blksubdev start len with dev := (dev.blksubdev start len).dev.blkDevAdd } =
      dev.blksubdev start len := rfl

/-- The subdevices are made of the valid entries, as far as there is memory. -/
theorem mem_mbrProbe {s : σ} {buf temp : Option (List UInt8)} {calloc : ℕ → Bool × Bool}
    {sub : Blksubdev σ} :
    sub ∈ (dev.mbrProbe s buf temp calloc).2 ↔
      ∃ sector, dev.mbrSector s buf temp = .ok sector ∧ ∃ i < 4, calloc i = (true, true) ∧
        ¬ dev.mbrIsValidEntry (mbrEntry sector i) < 0 ∧
        sub = dev.blksubdev (mbrEntry sector i).lbaStart.toNat (mbrEntry sector i).lbaLen.toNat := by
  have hpublish : ∀ entry mem, sub ∈ (dev.mbrPublishDevice entry mem).2 ↔
      mem = (true, true) ∧ ¬ dev.mbrIsValidEntry entry < 0 ∧
        sub = dev.blksubdev entry.lbaStart.toNat entry.lbaLen.toNat := by
    rintro entry ⟨name, struct⟩
    have hadd := @blkDevAdd_blksubdev σ dev entry.lbaStart.toNat entry.lbaLen.toNat
    unfold mbrPublishDevice
    by_cases hvalid : dev.mbrIsValidEntry entry < 0
    · simp [hvalid]
    · cases name <;> cases struct <;> simp [hvalid, hadd, eq_comm]
  cases hsector : dev.mbrSector s buf temp with
  | error err => simp [mbrProbe, hsector]
  | ok sector =>
    simp only [mbrProbe, hsector, List.mem_filterMap, List.mem_range, Except.ok.injEq, exists_eq_left']
    exact exists_congr fun i => and_congr_right fun _ => hpublish _ _

end Blkdev

/-! ## Partitions and their disk -/

/-- The subdevice is a part of the device, and each of its blocks is mapped to a block of that part. -/
def Blksubdev.Inside {σ : Type} (sub : Blksubdev σ) (dev : Blkdev σ) : Prop :=
  sub.offset + sub.dev.blockCount ≤ dev.blockCount ∧
    ∀ block < sub.dev.blockCount, sub.offset ≤ subdevBlock sub.offset block ∧
      subdevBlock sub.offset block < sub.offset + sub.dev.blockCount

/-- A part of a device with numbers of 32 bits maps its blocks into itself. -/
theorem Blkdev.inside_blksubdev {σ : Type} {dev : Blkdev σ} (hcount : dev.blockCount < 2 ^ 32)
    {start len : ℕ} : (dev.blksubdev start len).Inside dev ↔ start + len ≤ dev.blockCount := by
  constructor
  · exact fun h => h.1
  · intro hle
    refine ⟨hle, fun block hblock => ?_⟩
    have hlt : block < len := hblock
    have hsame : subdevBlock start block = block + start := toUint32_of_lt (by omega)
    constructor
    · exact hsame ▸ Nat.le_add_left start block
    · calc subdevBlock start block = block + start := hsame
        _ < start + len := by omega

/-- An end past `2 ^ 32` is a small number. -/
theorem Blkdev.Candidate.valid_iff {σ : Type} {dev : Blkdev σ} {entry : MbrEntry}
    (h : dev.Candidate entry) (hcount : dev.blockCount < 2 ^ 32) :
    ((entry.lbaStart + entry.lbaLen).toNat ≤ dev.blockCount →
        entry.lbaStart.toNat + entry.lbaLen.toNat ≤ dev.blockCount) ↔
      entry.lbaStart.toNat + entry.lbaLen.toNat < 2 ^ 32 := by
  obtain ⟨-, -, -, hstart⟩ := h
  have hlen := entry.lbaLen.toNat_lt
  rw [UInt32.toNat_add]
  constructor
  · intro hvalid
    by_contra hwrap
    -- The 32 low bits of the end are below the start, and the entry is valid.
    have hsmall : (entry.lbaStart.toNat + entry.lbaLen.toNat) % 2 ^ 32 < entry.lbaStart.toNat := by omega
    have := hvalid (by omega)
    omega
  · intro hlt hvalid
    rwa [Nat.mod_eq_of_lt hlt] at hvalid

/-- **Partitions lie inside of their disk, exactly.** For every device, and whatever its first sector
holds, the subdevices that are registered are parts of the device, if and only if no entry ends past
`2 ^ 32` that is otherwise valid and has the memory for a subdevice. -/
theorem mbr_probe_inside_iff {σ : Type} (dev : Blkdev σ) (hcount : dev.blockCount < 2 ^ 32) (s : σ)
    (buf temp : Option (List UInt8)) (calloc : ℕ → Bool × Bool) :
    (∀ sub ∈ (dev.mbrProbe s buf temp calloc).2, sub.Inside dev) ↔
      ∀ sector, dev.mbrSector s buf temp = .ok sector → ∀ i < 4, calloc i = (true, true) →
        dev.Candidate (mbrEntry sector i) →
        (mbrEntry sector i).lbaStart.toNat + (mbrEntry sector i).lbaLen.toNat < 2 ^ 32 := by
  constructor
  · intro h sector hsector i hi hmem hcand
    rw [← hcand.valid_iff hcount]
    intro hend
    have hvalid := Blkdev.mbrIsValidEntry_iff.mpr ⟨hcand, hend⟩
    have hinside := h _ (Blkdev.mem_mbrProbe.mpr ⟨sector, hsector, i, hi, hmem, hvalid, rfl⟩)
    exact (Blkdev.inside_blksubdev hcount).mp hinside
  · intro h sub hsub
    obtain ⟨sector, hsector, i, hi, hmem, hvalid, rfl⟩ := Blkdev.mem_mbrProbe.mp hsub
    obtain ⟨hcand, hend⟩ := Blkdev.mbrIsValidEntry_iff.mp hvalid
    apply (Blkdev.inside_blksubdev hcount).mpr
    exact (hcand.valid_iff hcount).mpr (h sector hsector i hi hmem hcand) hend

/-! ## A disk with a partition -/

/-- A sector whose first entry has the given addresses, and a type and a status that are valid. -/
def mbrImage (lbaStart lbaLen : List UInt8) : List UInt8 :=
  List.replicate 450 0 ++ [0x83, 0, 0, 0] ++ lbaStart ++ lbaLen ++ List.replicate 48 0 ++ [0x55, 0xaa]

/-- A disk of eight blocks, with a partition of four of them. -/
def partitioned : RamBytes 9 8 := ⟨mbrImage [2, 0, 0, 0] [4, 0, 0, 0] ++ List.replicate 3584 0, by decide +kernel⟩

/-- The same, with a partition of `2 ^ 32 - 1` blocks. -/
def overflowing : RamBytes 9 8 :=
  ⟨mbrImage [2, 0, 0, 0] [0xff, 0xff, 0xff, 0xff] ++ List.replicate 3584 0, by decide +kernel⟩

/-- The partition of four blocks is registered. -/
theorem mbr_probe_inside_partitioned :
    (ramDisk 9 8).blkDevAdd.blockCount < 2 ^ 32 ∧
      ∀ sub ∈ ((ramDisk 9 8).blkDevAdd.mbrProbe partitioned (some (List.replicate 512 0))
        (some (List.replicate 512 0)) fun _ => (true, true)).2, sub.Inside (ramDisk 9 8).blkDevAdd := by
  refine ⟨by decide, ?_⟩
  refine (mbr_probe_inside_iff (ramDisk 9 8).blkDevAdd (by decide) partitioned
    (some (List.replicate 512 0)) (some (List.replicate 512 0)) fun _ => (true, true)).mpr ?_
  intro sector hsector i hi _ _
  have hread : (ramDisk 9 8).blkDevAdd.mbrSector partitioned (some (List.replicate 512 0))
      (some (List.replicate 512 0)) = .ok (mbrImage [2, 0, 0, 0] [4, 0, 0, 0]) := by decide +kernel
  obtain rfl : mbrImage [2, 0, 0, 0] [4, 0, 0, 0] = sector := Except.ok.inj (hread.symm.trans hsector)
  have hall : ∀ i < 4, (mbrEntry (mbrImage [2, 0, 0, 0] [4, 0, 0, 0]) i).lbaStart.toNat +
      (mbrEntry (mbrImage [2, 0, 0, 0] [4, 0, 0, 0]) i).lbaLen.toNat < 2 ^ 32 := by decide +kernel
  exact hall i hi

/-- The partition of `2 ^ 32 - 1` blocks is registered, on a disk of eight, and its last block is the
sector with the table. -/
theorem not_inside_overflowing :
    let dev := (ramDisk 9 8).blkDevAdd
    let sub := dev.blksubdev 2 (2 ^ 32 - 1)
    sub ∈ (dev.mbrProbe overflowing (some (List.replicate 512 0)) (some (List.replicate 512 0))
        fun _ => (true, true)).2 ∧
      ¬ sub.Inside dev ∧ 2 ^ 32 - 2 < sub.dev.blockCount ∧ subdevBlock sub.offset (2 ^ 32 - 2) = 0 := by
  have hread : (ramDisk 9 8).blkDevAdd.mbrSector overflowing (some (List.replicate 512 0))
      (some (List.replicate 512 0)) = .ok (mbrImage [2, 0, 0, 0] [0xff, 0xff, 0xff, 0xff]) := by
    decide +kernel
  have hentry : mbrEntry (mbrImage [2, 0, 0, 0] [0xff, 0xff, 0xff, 0xff]) 0 =
      ⟨0, 0x83, 2, 0xffffffff⟩ := by decide +kernel
  refine ⟨?_, ?_, by decide, by decide⟩
  · refine Blkdev.mem_mbrProbe.mpr ⟨_, hread, 0, by norm_num, rfl, ?_, ?_⟩
    · rw [hentry]
      decide
    · rw [hentry]
      rfl
  · intro h
    exact absurd h.1 (by decide)

end I80k.Kernel

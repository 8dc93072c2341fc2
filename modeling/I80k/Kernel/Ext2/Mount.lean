import I80k.Kernel.Ext2.Dir

/-!
# Mounting an ext2 file system

The functions of `ext2/ext2.c` and `ext2/file.c` that mount a file system, open a file and read from it. A
mount reads the superblock and the descriptors of the groups, and loads the root inode. The superblock is
tested for its magic number, its revision and its features; everything else in it is taken as it is.

The number of groups is computed in 32 bits and stored in an `int`, of 16 bits; the sizes passed to `calloc`
and `blk_read` are `size_t`, of 16 bits.

## Main definitions

* `SuperBlock`, `Host`: the superblock, and what a mount uses of the rest of the kernel
* `Host.ext2Mount`: the mount
* `Ext2State`, `Ext2State.step`: mounts, and files opened and read
-/

namespace I80k.Kernel

/-- `struct ext2_super_block`, with the fields that the driver reads. -/
structure SuperBlock where
  /-- `s_blocks_count`. -/
  blocksCount : ℕ
  /-- `s_log_block_size`. -/
  logBlockSize : ℕ
  /-- `s_blocks_per_group`. -/
  blocksPerGroup : ℕ
  /-- `s_inodes_per_group`. -/
  inodesPerGroup : ℕ
  /-- `s_magic`. -/
  magic : ℕ
  /-- `s_rev_level`. -/
  revLevel : ℕ
  /-- `s_inode_size`. -/
  inodeSize : ℕ
  /-- `s_feature_ro_compat`. -/
  featureRoCompat : ℕ

namespace SuperBlock

/-- The superblock in a buffer. -/
def parse (buf : List UInt8) : SuperBlock where
  blocksCount := le32 buf 4
  logBlockSize := le32 buf 24
  blocksPerGroup := le32 buf 32
  inodesPerGroup := le32 buf 40
  magic := le16 buf 56
  revLevel := le32 buf 76
  inodeSize := le16 buf 88
  featureRoCompat := le32 buf 100

variable (sb : SuperBlock)

/-- `s_group_count`: a 32-bit number, rounded up, in an `int`. -/
def groupCount : Int16 :=
  Int16.ofNat (toUint32 (sb.blocksCount + sb.blocksPerGroup + (2 ^ 32 - 1)) / sb.blocksPerGroup)

/-- `sizeof(struct ext2_group_desc)`. -/
def groupDescSize : ℕ := 32

/-- `sizeof(struct ext2_group_desc) * s_group_count`, a `size_t`. -/
def gdBytes : ℕ := toUint (groupDescSize * sb.groupCount.toUInt16.toNat)

/-- The revision and the features are those that the driver supports. The numbers are those of
`EXT2_DYNAMIC_REV` and of the features other than `EXT2_FEATURE_RO_COMPAT_SPARSE_SUPER`. -/
def Supported : Prop := sb.revLevel ≤ 1 ∧ sb.featureRoCompat &&& 0xFFFFFFFE = 0

instance : Decidable sb.Supported := inferInstanceAs (Decidable (_ ∧ _))

end SuperBlock

/-- What the driver uses of the rest of the kernel. -/
structure Host where
  /-- `blk_read(dev, buf, offset, len)`: its result, and what `buf` holds afterwards. -/
  blkRead : ℕ → ℕ → Int16 × List UInt8
  /-- Whether there is memory for an `ext2_t`. -/
  allocExt2 : Bool
  /-- Whether there is memory for this many bytes of group descriptors. -/
  allocGd : ℕ → Bool
  /-- Whether there is memory for a copy of this block. -/
  alloc : ℕ → Bool
  /-- What the memory holds from a new buffer for a block of a directory on. -/
  fresh : List UInt8

/-- An `ext2_t` after its mount. -/
structure Mounted where
  fs : Ext2
  /-- The number of group descriptors that were allocated and read. -/
  descriptors : ℕ

namespace Host

variable (host : Host)

/-- The superblock of the device, if it can be read and has the magic number `EXT2_SUPER_MAGIC`; else the
error. -/
def superBlock : Except Int16 SuperBlock :=
  if ¬ host.allocExt2 then .error errNoMem
  else
    let (err, buf) := host.blkRead 1024 1024
    if err < 0 then .error err
    else if (SuperBlock.parse buf).magic ≠ 0xEF53 then .error (-1)
    else .ok (SuperBlock.parse buf)

/-- Whether `calloc` has memory for the group descriptors; it has none for no bytes. -/
def allocates (sb : SuperBlock) : Prop := sb.gdBytes ≠ 0 ∧ host.allocGd sb.gdBytes

instance (sb : SuperBlock) : Decidable (host.allocates sb) := inferInstanceAs (Decidable (_ ∧ _))

/-- `EXT2_BLOCK_SIZE`. -/
def blockSize (sb : SuperBlock) : ℕ := toUint32 (1024 * 2 ^ sb.logBlockSize)

/-- The group descriptors on the device. -/
def readGd (sb : SuperBlock) : Int16 × List UInt8 :=
  host.blkRead (if blockSize sb = 4096 then 4096 else 2048) sb.gdBytes

/-- The descriptors that were allocated and read, out of the bytes of `readGd`. -/
def descriptors (sb : SuperBlock) : ℕ :=
  min (sb.gdBytes / SuperBlock.groupDescSize) ((host.readGd sb).1.toInt.toNat / SuperBlock.groupDescSize)

/-- The `ext2_t` with these group descriptors, before the root inode is loaded. -/
def ext2 (sb : SuperBlock) (gd : List UInt8) : Ext2 where
  logBlockSize := sb.logBlockSize
  inodesPerGroup := sb.inodesPerGroup
  -- `EXT2_GOOD_OLD_INODE_SIZE` for `EXT2_GOOD_OLD_REV`.
  inodeSize := if sb.revLevel = 0 then 128 else sb.inodeSize
  featureRoCompat := sb.featureRoCompat
  inodeTable group := le32 gd (SuperBlock.groupDescSize * group + 8)
  rootInode := ⟨0, 0, []⟩
  blkRead := host.blkRead
  alloc := host.alloc
  fresh := host.fresh

/-- `EXT2_ROOT_INO`. -/
def rootIno : ℕ := 2

/-- Mounts the file system of the device. -/
def ext2Mount : Except Int16 Mounted := do
  let sb ← host.superBlock
  if ¬ sb.Supported then .error errNotSupp
  else if ¬ host.allocates sb then .error errNoMem
  else
    let (err, gd) := host.readGd sb
    if err < 0 then .error (-4)
    else
      let fs := host.ext2 sb gd
      let root ← fs.ext2LoadInode rootIno
      .ok ⟨{ fs with rootInode := root }, host.descriptors sb⟩

end Host

/-! ## Sequences of calls -/

/-- The mounts, and the open files: an `ext2_file_t` holds its file system and its inode. -/
structure Ext2State where
  mounts : List Mounted
  files : List (Mounted × Inode)

namespace Ext2State

/-- The calls. `openFile` opens a path on a mount; `inum` is what the variable of that name holds before
the lookup, `fuel` is for the depth of the loops of the lookup, and `alloc` says whether there is memory for
the file. -/
inductive Op
  | mount (host : Host)
  | openFile (mount fuel : ℕ) (path : List Char8) (inum : ℕ) (alloc : Bool)
  | readFile (file offset len : ℕ)

/-- `ext2_open_file`: the inode of the file. -/
def openFile (m : Mounted) (fuel : ℕ) (path : List Char8) (inum : ℕ) (alloc : Bool) : Option Inode :=
  match m.fs.ext2Walk fuel (strlcpy path 512) m.fs.rootInode inum 1 with
  | none => none
  | some (err, inum) =>
    if err < 0 ∨ ¬ alloc then none
    else
      match m.fs.ext2LoadInode inum with
      | .error _ => none
      | .ok inode => some inode

/-- The state after a call. A read changes nothing. -/
def step (s : Ext2State) : Op → Option Ext2State
  | .mount host =>
    match host.ext2Mount with
    | .error _ => some s
    | .ok m => some { s with mounts := s.mounts ++ [m] }
  | .openFile mount fuel path inum alloc => s.mounts[mount]?.map fun m =>
    match openFile m fuel path inum alloc with
    | none => s
    | some inode => { s with files := s.files ++ [(m, inode)] }
  | .readFile file _ _ => s.files[file]?.map fun _ => s

/-- No file system is mounted. -/
def initial : Ext2State := ⟨[], []⟩

end Ext2State

end I80k.Kernel

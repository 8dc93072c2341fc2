import I80k.Kernel.Error
import I80k.Kernel.Word

/-!
# Reading ext2 inodes

The functions of `ext2/io.c`, from a logical block of an inode to a physical block of the device, and
from there to bytes. Numbers are exact; where the source stores one in a narrower variable, the model
takes the remainder. The widths differ: a block number is a `blocknum_t` of 32 bits on the disk and
in most places, but a `uint` of 16 bits while `ext2_get_indirect_block_pointer_cache_block` digs down,
and so is the logical block number in `ext2_read_inode`.

## Main definitions

* `Inode`, `Ext2`: an inode, and a mounted file system
* `Ext2.ext2CalculateBlockPointerPos`: the position of a logical block among the pointers
* `Ext2.digDown`, `Ext2.fileBlockToFsBlock`: the walk through the indirect blocks
* `Ext2.ext2ReadInode`: the bytes read from an inode, and the physical blocks they come from
-/

namespace I80k.Kernel

/-- `struct ext2_inode`, with the fields that the driver reads. -/
structure Inode where
  /-- `i_mode`. -/
  mode : ℕ
  /-- `i_size`. -/
  size : ℕ
  /-- `i_block`. -/
  block : List ℕ
  deriving DecidableEq

namespace Inode

/-- `S_IFMT`. -/
def fmt : ℕ := 0xF000

/-- `S_ISDIR`. -/
def IsDir (inode : Inode) : Prop := inode.mode &&& fmt = 0x4000

/-- `S_ISREG`. -/
def IsReg (inode : Inode) : Prop := inode.mode &&& fmt = 0x8000

/-- `S_ISLNK`. -/
def IsLnk (inode : Inode) : Prop := inode.mode &&& fmt = 0xA000

instance (inode : Inode) : Decidable inode.IsDir := inferInstanceAs (Decidable (_ = _))
instance (inode : Inode) : Decidable inode.IsReg := inferInstanceAs (Decidable (_ = _))
instance (inode : Inode) : Decidable inode.IsLnk := inferInstanceAs (Decidable (_ = _))

end Inode

/-- `ext2_t`: the fields of the superblock and of the group descriptors that the driver reads, and
what it uses of the rest of the kernel. -/
structure Ext2 where
  /-- `s_log_block_size`. -/
  logBlockSize : ℕ
  /-- `s_inodes_per_group`. -/
  inodesPerGroup : ℕ
  /-- `EXT2_INODE_SIZE`. -/
  inodeSize : ℕ
  /-- `s_feature_ro_compat`. -/
  featureRoCompat : ℕ
  /-- `gd[group].bg_inode_table`. -/
  inodeTable : ℕ → ℕ
  /-- `root_inode`. -/
  rootInode : Inode
  /-- `blk_read(dev, buf, offset, len)`: its result, and what `buf` holds afterwards. -/
  blkRead : ℕ → ℕ → Int16 × List UInt8
  /-- Whether `malloc` has memory for a copy of this block. -/
  alloc : ℕ → Bool
  /-- What the memory holds from a new buffer for a block of a directory on. -/
  fresh : List UInt8

namespace Ext2

variable (fs : Ext2)

/-- `EXT2_BLOCK_SIZE`. -/
def blockSize : ℕ := toUint32 (1024 * 2 ^ fs.logBlockSize)

/-- `EXT2_ADDR_PER_BLOCK`. -/
def addrPerBlock : ℕ := fs.blockSize / 4

/-- Reads a block: the result of `blk_read`, and the contents of the buffer. -/
def ext2ReadBlock (bnum : ℕ) : Int16 × List UInt8 :=
  fs.blkRead (toUint32 (bnum * fs.blockSize)) fs.blockSize

/-- A new buffer with the contents of a block. -/
def ext2GetBlock (bnum : ℕ) : Except Int16 (List UInt8) :=
  if ¬ fs.alloc bnum then .error errNoMem
  else
    let (err, block) := fs.ext2ReadBlock bnum
    if err < 0 then .error err else .ok block

/-- The number of direct blocks, `EXT2_NDIR_BLOCKS`; the three pointers after them are those to
indirect blocks. -/
def ndirBlocks : ℕ := 12

/-- The positions `pos[0]`, …, `pos[level]` of a logical block, or `none` if it is too big. -/
def ext2CalculateBlockPointerPos (blockToFind : ℕ) : Option (List ℕ) :=
  if blockToFind < ndirBlocks then some [blockToFind]
  else
    let perBlock := fs.addrPerBlock
    let blockToFind := blockToFind - ndirBlocks
    if blockToFind < perBlock then some [ndirBlocks, blockToFind]
    else
      let blockToFind := blockToFind - perBlock
      let per2ndBlock := toUint32 (perBlock * perBlock)
      if blockToFind < per2ndBlock then
        some [ndirBlocks + 1, blockToFind / perBlock, blockToFind % perBlock]
      else
        let blockToFind := blockToFind - per2ndBlock
        if blockToFind < toUint32 (per2ndBlock * perBlock) then
          some [ndirBlocks + 2, blockToFind / per2ndBlock, blockToFind % per2ndBlock / perBlock,
            blockToFind % per2ndBlock % perBlock]
        else none

/-- The loop of `ext2_get_indirect_block_pointer_cache_block`, from the `uint` `currentBlock` on and
through the given positions: the contents of the last indirect block. -/
def digDown (currentBlock : ℕ) : List ℕ → Except Int16 (List UInt8)
  | [] => if currentBlock = 0 then .error (-1) else fs.ext2GetBlock currentBlock
  | pos :: rest =>
    if currentBlock = 0 then .error (-1)
    else do
      let block ← fs.ext2GetBlock currentBlock
      digDown (toUint (le32 block (4 * pos))) rest

/-- The indirect block that holds the pointer at the end of `pos`. -/
def ext2GetIndirectBlockPointerCacheBlock (inode : Inode) (pos : List ℕ) : Except Int16 (List UInt8) :=
  fs.digDown (toUint (inode.block.getD (pos.headD 0) 0)) pos.tail.dropLast

/-- The pointer at a position of an indirect block, or 0 if the block could not be reached. -/
def tableEntry (table : Except Int16 (List UInt8)) (pos : ℕ) : ℕ :=
  match table with
  | .error _ => 0
  | .ok table => le32 table (4 * pos)

/-- Translates a logical block to a physical block; 0 is a hole. -/
def fileBlockToFsBlock (inode : Inode) (fileblock : ℕ) : ℕ :=
  -- For a block that is too big, `level` keeps the value 0 it has before the call.
  let pos := (fs.ext2CalculateBlockPointerPos fileblock).getD [fileblock]
  if pos.length = 1 then inode.block.getD fileblock 0
  else tableEntry (fs.ext2GetIndirectBlockPointerCacheBlock inode pos) (pos.getLastD 0)

/-- `ext2_file_len`. The bit is that of `EXT2_FEATURE_RO_COMPAT_LARGE_FILE`. -/
def ext2FileLen (inode : Inode) : ℤ :=
  if fs.featureRoCompat &&& 2 ≠ 0 ∧ inode.IsReg then errNotSupp.toInt else toOff inode.size

/-- Part of a physical block that a read takes bytes from: `length` bytes, that are those of the file
from `offset` on. -/
structure Use where
  offset : ℕ
  length : ℕ
  block : ℕ

/-- The bytes read, and where they come from. -/
structure Transfer where
  bytes : List UInt8
  uses : List Use

def Transfer.append (a b : Transfer) : Transfer := ⟨a.bytes ++ b.bytes, a.uses ++ b.uses⟩

/-- The contents of a logical block. What a failed read leaves in the buffer is taken for it. -/
def readFileBlock (inode : Inode) (fileBlock : ℕ) : List UInt8 :=
  let physBlock := fs.fileBlockToFsBlock inode fileBlock
  if physBlock = 0 then List.replicate fs.blockSize 0 else (fs.ext2ReadBlock physBlock).2

/-- Copies `length` bytes out of a logical block, from index `start` on. The bytes are those of the
file from `offset` on. -/
def copyOut (inode : Inode) (fileBlock offset start length : ℕ) : Transfer where
  bytes := ((fs.readFileBlock inode fileBlock).drop start).take length
  uses := [⟨offset, length, fs.fileBlockToFsBlock inode fileBlock⟩]

/-- The middle blocks and the partial last block: the loop, for at most `fuel` turns. -/
def readBlocks (inode : Inode) : ℕ → ℕ → ℕ → ℕ → Transfer
  | 0, _, _, _ => ⟨[], []⟩
  | fuel + 1, fileBlock, offset, len =>
    if fs.blockSize ≤ len then
      (fs.copyOut inode fileBlock offset 0 fs.blockSize).append
        (readBlocks inode fuel (toUint (fileBlock + 1)) (offset + fs.blockSize) (len - fs.blockSize))
    else if 0 < len then fs.copyOut inode fileBlock offset 0 len
    else ⟨[], []⟩

/-- The length of a read after trimming to the size of the file. -/
def trimLen (inode : Inode) (offset len : ℕ) : ℕ :=
  let fileSize := fs.ext2FileLen inode
  if fileSize < toOff offset then 0
  else if fileSize ≤ toOff (offset + len) then (fileSize - toOff offset).toNat % 2 ^ 16
  else len

/-- Reads `len` bytes from `offset` on, an `off_t` that is not negative. The result is the number of
bytes, as an `ssize_t`. -/
def ext2ReadInode (inode : Inode) (offset len : ℕ) : Int16 × Transfer :=
  let len := fs.trimLen inode offset len
  if len = 0 then (0, ⟨[], []⟩)
  else
    let fileBlock := toUint (offset / fs.blockSize)
    if offset % fs.blockSize ≠ 0 then
      let blockOffset := offset % fs.blockSize
      let tocopy := min len (fs.blockSize - blockOffset)
      let first := fs.copyOut inode fileBlock offset blockOffset tocopy
      let rest := fs.readBlocks inode (len + 1) (toUint (fileBlock + 1)) (offset + tocopy) (len - tocopy)
      (Int16.ofNat len, first.append rest)
    else (Int16.ofNat len, fs.readBlocks inode (len + 1) fileBlock offset len)

end Ext2

end I80k.Kernel

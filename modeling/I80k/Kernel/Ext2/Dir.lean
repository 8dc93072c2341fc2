import I80k.Kernel.Ext2.Io
import I80k.Kernel.Fs.Path

/-!
# Looking up ext2 paths

The functions of `ext2/dir.c`, with `ext2_load_inode` and `ext2_read_link` that they call. A lookup in
one directory returns 1 and the inode number if it finds the name, and a negative error if it fails;
if the name is not there it returns 0, and leaves the inode number that its caller passed in.

The walk over the components of a path goes through the variable `inum` of the caller: what a lookup
finds is stored there, and loaded from there.

## Main definitions

* `Ext2.ext2LoadInode`, `Ext2.ext2ReadLink`
* `Ext2.scan`, `Ext2.ext2DirLookup`: the search for a name in a block, and in a directory
* `Ext2.walkBy`, `Ext2.nextComponentBy`: the loop of `ext2_walk`, and its label, for any lookup in a directory
* `Ext2.ext2Walk`, `Ext2.ext2Lookup`: the walk, and the lookup of a path, with `ext2DirLookup`
-/

namespace I80k.Kernel.Ext2

variable (fs : Ext2)

/-- `struct ext2_inode` in a buffer. -/
def parseInode (buf : List UInt8) : Inode where
  mode := le16 buf 0
  size := le32 buf 4
  block := (List.range 15).map fun i => le32 buf (40 + 4 * i)

/-- The block that holds an inode, and the offset in it. -/
def getInodeAddr (num : ℕ) : ℕ × ℕ :=
  let num := toUint32 (num + (2 ^ 32 - 1))
  let group := num / fs.inodesPerGroup
  let offset := toUint (num % fs.inodesPerGroup * fs.inodeSize)
  (toUint32 (fs.inodeTable group + offset / fs.blockSize), offset % fs.blockSize)

/-- Reads an inode from the device. -/
def ext2LoadInode (num : ℕ) : Except Int16 Inode :=
  let (bnum, blockOffset) := fs.getInodeAddr num
  let (err, buf) := fs.blkRead (toUint32 (bnum * fs.blockSize + blockOffset)) 128
  if err < 0 then .error err else .ok (parseInode buf)

/-- The bytes of a 32-bit number in memory. -/
def bytesLe32 (n : ℕ) : List UInt8 :=
  [UInt8.ofNat n, UInt8.ofNat (n / 2 ^ 8), UInt8.ofNat (n / 2 ^ 16), UInt8.ofNat (n / 2 ^ 24)]

/-- The target of a symbolic link, as the string in a buffer of 512 bytes. -/
def ext2ReadLink (inode : Inode) : Except Int16 (List Char8) :=
  let linklen := fs.ext2FileLen inode
  if linklen < 0 ∨ 512 < linklen + 1 then .error errNoMem
  else if 60 < linklen then
    let (err, read) := fs.ext2ReadInode inode 0 linklen.toNat
    if err < 0 then .error err else .ok (cstring (read.bytes.take linklen.toNat))
  else .ok (cstring ((inode.block.flatMap bytesLe32).take linklen.toNat))

/-- `ROUNDUP(len, 4)`, in `uint16_t`. -/
def roundup4 (len : ℕ) : ℕ := toUint (len + 3) / 4 * 4

/-- The name of the record at `pos` is `name`. -/
def NameMatches (buf : List UInt8) (pos : ℕ) (name : List Char8) : Prop :=
  (buf.getD (pos + 6) 0).toNat = name.length ∧ (buf.drop (pos + 8)).take name.length = name

instance (buf : List UInt8) (pos : ℕ) (name : List Char8) : Decidable (NameMatches buf pos name) :=
  inferInstanceAs (Decidable (_ ∧ _))

/-- Walks through the records of a block: the inode of the first one with the name, if there is one.
The position is a `uint`, so a loop of more than `2 ^ 16` turns does not end. -/
def scan (buf : List UInt8) (name : List Char8) : ℕ → ℕ → Option (Option ℕ)
  | 0, _ => none
  | fuel + 1, pos =>
    if fs.blockSize ≤ pos then some none
    else if le16 buf (pos + 4) = 0 then some none
    else if NameMatches buf pos name then some (some (le32 buf pos))
    else scan buf name fuel (toUint (pos + roundup4 (le16 buf (pos + 4))))

/-- The blocks of a directory from `fileBlocknum` on, `fuel` of them at most. The buffer keeps what a
short read does not overwrite, and the memory after it is not overwritten at all. -/
def dirBlocks (dir : Inode) (name : List Char8) :
    ℕ → ℕ → List UInt8 → Option (Int16 × Option ℕ)
  | 0, _, _ => some (-1, none)
  | fuel + 1, fileBlocknum, buf =>
    let (err, read) := fs.ext2ReadInode dir (toUint32 (fileBlocknum * fs.blockSize)) (toUint fs.blockSize)
    if err ≤ 0 then some (err, none)
    else
      let buf := read.bytes ++ buf.drop read.bytes.length
      match fs.scan buf name (2 ^ 16 + 1) 0 with
      | none => none
      | some (some inum) => some (1, some inum)
      | some none => dirBlocks dir name fuel (fileBlocknum + 1) buf

/-- Looks for a name in a directory, of at most 1025 blocks: the result, and the inode found. -/
def ext2DirLookup (dir : Inode) (name : List Char8) : Option (Int16 × Option ℕ) :=
  if ¬ dir.IsDir then some (errNotDir, none)
  else fs.dirBlocks dir name 1025 0 fs.fresh

section Walk

variable (lookup : Inode → List Char8 → Option (Int16 × Option ℕ))

mutual

/-- The loop of `ext2_walk` from a component on: the result, and `inum`. The calls of `ext2_dir_lookup` are those of
`lookup`. -/
def walkBy : ℕ → ℕ → List Char8 → Inode → ℕ → Option (Int16 × ℕ)
  | 0, _, _, _, _ => none
  | fuel + 1, recurse, ptr, dirInode, inum =>
    let name := ptr.takeWhile (· ≠ slash)
    match lookup dirInode name with
    | none => none
    | some (err, found) =>
      if err < 0 then some (err, inum)
      else nextComponentBy fuel recurse (ptr.drop name.length) dirInode (found.getD inum)

/-- The label `nextcomponent`, with the rest of the path from the next separator on. -/
def nextComponentBy : ℕ → ℕ → List Char8 → Inode → ℕ → Option (Int16 × ℕ)
  | 0, _, _, _, _ => none
  | fuel + 1, recurse, nextSep, dirInode, inum =>
    match fs.ext2LoadInode inum with
    | .error err => some (err, inum)
    | .ok inode =>
      if inode.IsLnk then
        match fs.ext2ReadLink inode with
        | .error err => some (err, inum)
        | .ok link =>
          -- A link that starts with a separator starts over again at the root.
          let start := if link.head? = some slash then fs.rootInode else dirInode
          let result :=
            if 4 < recurse + 1 then some (errNoEntry, inum)
            else walkBy fuel (recurse + 1) (link.dropWhile (· = slash)) start inum
          match result with
          | none => none
          | some (err, inum) =>
            if err < 0 then some (err, inum)
            else if nextSep = [] then some (0, inum)
            else nextComponentBy fuel recurse nextSep dirInode inum
      else if nextSep = [] then some (0, inum)
      else if inode.IsDir then walkBy fuel recurse (nextSep.dropWhile (· = slash)) inode inum
      else some (errNoEntry, inum)

end

/-- `ext2_walk`, with `fuel` for the depth of its loops. -/
def ext2WalkBy (fuel : ℕ) (path : List Char8) (startInode : Inode) (inum recurse : ℕ) :
    Option (Int16 × ℕ) :=
  if 4 < recurse then some (errNoEntry, inum)
  else fs.walkBy lookup fuel recurse (path.dropWhile (· = slash)) startInode inum

/-- Looks up a path: the result, and the value of `*inum` afterwards. A path has less than 512
characters, and so has the target of a link, through four levels of links. -/
def ext2LookupBy (path : List Char8) (inum : ℕ) : Option (Int16 × ℕ) :=
  fs.ext2WalkBy lookup 8192 (strlcpy path 512) fs.rootInode inum 1

end Walk

/-- The loop of `ext2_walk`, where the buffers of all lookups are allocated. -/
def walk : ℕ → ℕ → List Char8 → Inode → ℕ → Option (Int16 × ℕ) := fs.walkBy fs.ext2DirLookup

/-- And its label. -/
def nextComponent : ℕ → ℕ → List Char8 → Inode → ℕ → Option (Int16 × ℕ) := fs.nextComponentBy fs.ext2DirLookup

/-- `ext2_walk`, where the buffers of all lookups are allocated. -/
def ext2Walk : ℕ → List Char8 → Inode → ℕ → ℕ → Option (Int16 × ℕ) := fs.ext2WalkBy fs.ext2DirLookup

/-- `ext2_lookup`, where the buffers of all lookups are allocated. -/
def ext2Lookup : List Char8 → ℕ → Option (Int16 × ℕ) := fs.ext2LookupBy fs.ext2DirLookup

section Turns

variable (fuel recurse : ℕ) (ptr : List Char8) (dirInode : Inode) (inum : ℕ)

theorem walk_zero : fs.walk 0 recurse ptr dirInode inum = none := by
  rw [walk, walkBy]

theorem nextComponent_zero : fs.nextComponent 0 recurse ptr dirInode inum = none := by
  rw [nextComponent, nextComponentBy]

theorem walk_turn : fs.walk (fuel + 1) recurse ptr dirInode inum =
    match fs.ext2DirLookup dirInode (ptr.takeWhile (· ≠ slash)) with
    | none => none
    | some (err, found) =>
      if err < 0 then some (err, inum)
      else fs.nextComponent fuel recurse (ptr.drop (ptr.takeWhile (· ≠ slash)).length) dirInode
        (found.getD inum) := by
  rw [walk, walkBy]
  rfl

theorem nextComponent_turn (nextSep : List Char8) : fs.nextComponent (fuel + 1) recurse nextSep dirInode inum =
    match fs.ext2LoadInode inum with
    | .error err => some (err, inum)
    | .ok inode =>
      if inode.IsLnk then
        match fs.ext2ReadLink inode with
        | .error err => some (err, inum)
        | .ok link =>
          let start := if link.head? = some slash then fs.rootInode else dirInode
          let result :=
            if 4 < recurse + 1 then some (errNoEntry, inum)
            else fs.walk fuel (recurse + 1) (link.dropWhile (· = slash)) start inum
          match result with
          | none => none
          | some (err, inum) =>
            if err < 0 then some (err, inum)
            else if nextSep = [] then some (0, inum)
            else fs.nextComponent fuel recurse nextSep dirInode inum
      else if nextSep = [] then some (0, inum)
      else if inode.IsDir then fs.walk fuel recurse (nextSep.dropWhile (· = slash)) inode inum
      else some (errNoEntry, inum) := by
  rw [nextComponent, nextComponentBy]
  rfl

theorem ext2Walk_eq (path : List Char8) (startInode : Inode) :
    fs.ext2Walk fuel path startInode inum recurse =
      if 4 < recurse then some (errNoEntry, inum)
      else fs.walk fuel recurse (path.dropWhile (· = slash)) startInode inum :=
  rfl

theorem ext2Lookup_eq (path : List Char8) :
    fs.ext2Lookup path inum = fs.ext2Walk 8192 (strlcpy path 512) fs.rootInode inum 1 :=
  rfl

end Turns

/-- The rest of a path behind its first component. -/
theorem drop_length_takeWhile (ptr : List Char8) :
    ptr.drop (ptr.takeWhile (· ≠ slash)).length = ptr.dropWhile (· ≠ slash) := by
  have hsplit := List.takeWhile_append_dropWhile (p := fun c => decide (c ≠ slash)) (l := ptr)
  exact (congrArg (List.drop _) hsplit.symm).trans List.drop_left

end I80k.Kernel.Ext2

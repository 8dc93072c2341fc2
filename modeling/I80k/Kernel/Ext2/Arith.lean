import I80k.Kernel.Ext2.Mount
import I80k.Lib.Run

/-!
# The arithmetic of ext2

The driver divides by numbers that it finds in the superblock, shifts by one of them, and uses inode numbers
of directory entries as indices into the array of group descriptors. The arithmetic of a call is the list of
these divisions, shifts and accesses, in order; it is defined if no divisor is 0, no shift is by 32 or more,
and no index is past the descriptors that were allocated and read.

A mount tests none of these numbers. Once its own arithmetic is defined, so are the divisions and shifts of
every later call, and what is left to say is about the inode numbers.

## Main definitions

* `Arith`, `Arith.Defined`: a division, a shift or an access
* `Ext2.getInodeAddrArith`, `Ext2.readInodeArith`, `Host.mountArith`: the arithmetic of the three functions
* `Ext2.Call`, `Ext2.walkCalls`: the calls that a lookup makes of two of them
* `Ext2State.Defined`, `Ext2State.Sound`: the arithmetic of a step is defined, and the condition for it

## Main results

* `Ext2.arith_readInode`: the arithmetic of a read is defined for a block size that fits
* `Host.mount_defined_iff`: the superblocks that are mounted with defined arithmetic
* `ext2_arith_defined_iff`: the arithmetic along a run is defined if and only if its steps are sound
-/

namespace I80k.Kernel

open StepSystem

/-- An operation that may be undefined. -/
inductive Arith
  /-- A quotient or a remainder, by this divisor. -/
  | div (divisor : ℕ)
  /-- A shift of a 32-bit number by this count. -/
  | shift (count : ℕ)
  /-- An access to the group descriptor of this index. -/
  | gd (index : ℕ)

/-- The operation is defined, with this number of descriptors. -/
def Arith.Defined (descriptors : ℕ) : Arith → Prop
  | .div divisor => divisor ≠ 0
  | .shift count => count < 32
  | .gd index => index < descriptors

namespace Ext2

variable (fs : Ext2)

/-- `EXT2_BLOCK_SIZE`, as a divisor. -/
def blockSizeDiv : List Arith := [.shift fs.logBlockSize, .div fs.blockSize]

/-- The group of an inode. -/
def groupOf (num : ℕ) : ℕ := toUint32 (num + (2 ^ 32 - 1)) / fs.inodesPerGroup

/-- The arithmetic of `get_inode_addr`. -/
def getInodeAddrArith (num : ℕ) : List Arith :=
  [.div fs.inodesPerGroup, .gd (fs.groupOf num), .div fs.inodesPerGroup] ++ fs.blockSizeDiv ++ fs.blockSizeDiv

/-- The arithmetic of `ext2_calculate_block_pointer_pos`. -/
def blockPointerPosArith (blockToFind : ℕ) : List Arith :=
  if blockToFind < ndirBlocks then []
  else
    let perBlock := fs.addrPerBlock
    let blockToFind := blockToFind - ndirBlocks
    .shift fs.logBlockSize ::
      if blockToFind < perBlock then []
      else
        let blockToFind := blockToFind - perBlock
        let per2ndBlock := toUint32 (perBlock * perBlock)
        if blockToFind < per2ndBlock then [.div perBlock, .div perBlock]
        else
          let blockToFind := blockToFind - per2ndBlock
          if blockToFind < toUint32 (per2ndBlock * perBlock) then
            [.div per2ndBlock, .div per2ndBlock, .div perBlock, .div per2ndBlock, .div perBlock]
          else []

/-- The arithmetic of the loop of `ext2_read_inode`, and of its partial last block. -/
def readBlocksArith : ℕ → ℕ → ℕ → List Arith
  | 0, _, _ => []
  | fuel + 1, fileBlock, len =>
    .shift fs.logBlockSize ::
      if fs.blockSize ≤ len then
        fs.blockPointerPosArith fileBlock ++
          readBlocksArith fuel (toUint (fileBlock + 1)) (len - fs.blockSize)
      else if 0 < len then fs.blockPointerPosArith fileBlock
      else []

/-- The arithmetic of `ext2_read_inode`. -/
def readInodeArith (inode : Inode) (offset len : ℕ) : List Arith :=
  let len := fs.trimLen inode offset len
  if len = 0 then []
  else
    let fileBlock := toUint (offset / fs.blockSize)
    fs.blockSizeDiv ++ fs.blockSizeDiv ++
      if offset % fs.blockSize ≠ 0 then
        let tocopy := min len (fs.blockSize - offset % fs.blockSize)
        fs.blockPointerPosArith fileBlock ++ fs.blockSizeDiv ++
          fs.readBlocksArith (len + 1) (toUint (fileBlock + 1)) (len - tocopy)
      else fs.readBlocksArith (len + 1) fileBlock len

/-! ## The calls of a lookup -/

/-- A call of `ext2_load_inode`, that is one of `get_inode_addr`, or of `ext2_read_inode`. -/
inductive Call
  | loadInode (num : ℕ)
  | readInode (inode : Inode) (offset len : ℕ)

/-- The arithmetic of a call. -/
def Call.arith : Call → List Arith
  | .loadInode num => fs.getInodeAddrArith num ++ [.shift fs.logBlockSize]
  | .readInode inode offset len => fs.readInodeArith inode offset len

/-- The calls of `ext2_dir_lookup`. -/
def dirBlocksCalls (dir : Inode) (name : List Char8) : ℕ → ℕ → List UInt8 → List Call
  | 0, _, _ => []
  | fuel + 1, fileBlocknum, buf =>
    let offset := toUint32 (fileBlocknum * fs.blockSize)
    let (err, read) := fs.ext2ReadInode dir offset (toUint fs.blockSize)
    .readInode dir offset (toUint fs.blockSize) ::
      if err ≤ 0 then []
      else
        let buf := read.bytes ++ buf.drop read.bytes.length
        match fs.scan buf name (2 ^ 16 + 1) 0 with
        | some none => dirBlocksCalls dir name fuel (fileBlocknum + 1) buf
        | _ => []

def dirLookupCalls (dir : Inode) (name : List Char8) : List Call :=
  if ¬ dir.IsDir then [] else fs.dirBlocksCalls dir name 1025 0 fs.fresh

/-- The call of `ext2_read_link`. -/
def readLinkCalls (inode : Inode) : List Call :=
  let linklen := fs.ext2FileLen inode
  if linklen < 0 ∨ 512 < linklen + 1 then []
  else if 60 < linklen then [.readInode inode 0 linklen.toNat]
  else []

mutual

/-- The calls of the loop of `ext2_walk`. -/
def walkCalls : ℕ → ℕ → List Char8 → Inode → ℕ → List Call
  | 0, _, _, _, _ => []
  | fuel + 1, recurse, ptr, dirInode, inum =>
    let name := ptr.takeWhile (· ≠ slash)
    fs.dirLookupCalls dirInode name ++
      match fs.ext2DirLookup dirInode name with
      | none => []
      | some (err, found) =>
        if err < 0 then []
        else nextComponentCalls fuel recurse (ptr.drop name.length) dirInode (found.getD inum)

/-- The calls from the label `nextcomponent` on. -/
def nextComponentCalls : ℕ → ℕ → List Char8 → Inode → ℕ → List Call
  | 0, _, _, _, _ => []
  | fuel + 1, recurse, nextSep, dirInode, inum =>
    .loadInode inum ::
      match fs.ext2LoadInode inum with
      | .error _ => []
      | .ok inode =>
        if inode.IsLnk then
          fs.readLinkCalls inode ++
            match fs.ext2ReadLink inode with
            | .error _ => []
            | .ok link =>
              let start := if link.head? = some slash then fs.rootInode else dirInode
              let target := link.dropWhile (· = slash)
              if 4 < recurse + 1 then []
              else
                walkCalls fuel (recurse + 1) target start inum ++
                  match fs.walk fuel (recurse + 1) target start inum with
                  | none => []
                  | some (err, inum) =>
                    if err < 0 ∨ nextSep = [] then []
                    else nextComponentCalls fuel recurse nextSep dirInode inum
        else if nextSep = [] then []
        else if inode.IsDir then walkCalls fuel recurse (nextSep.dropWhile (· = slash)) inode inum
        else []

end

/-- The calls of `ext2_open_file`. -/
def openCalls (fuel : ℕ) (path : List Char8) (inum : ℕ) (alloc : Bool) : List Call :=
  let path := strlcpy path 512
  fs.walkCalls fuel 1 (path.dropWhile (· = slash)) fs.rootInode inum ++
    match fs.ext2Walk fuel path fs.rootInode inum 1 with
    | none => []
    | some (err, inum) => if err < 0 ∨ ¬ alloc then [] else [.loadInode inum]

end Ext2

/-! ## Mounts -/

namespace Host

variable (host : Host)

/-- The arithmetic of `ext2_mount`. -/
def mountArith : List Arith :=
  match host.superBlock with
  | .error _ => []
  | .ok sb =>
    .div sb.blocksPerGroup ::
      if ¬ sb.Supported ∨ ¬ host.allocates sb then []
      else
        let (err, gd) := host.readGd sb
        .shift sb.logBlockSize ::
          if err < 0 then []
          else
            -- The loop over the descriptors, and the root inode.
            (List.range sb.groupCount.toInt.toNat).map .gd ++ Ext2.Call.arith (host.ext2 sb gd) (.loadInode rootIno)

end Host

/-! ## Steps -/

namespace Ext2State

/-- The arithmetic of a step, and the number of descriptors it is about. -/
def arith (s : Ext2State) : Op → List (ℕ × Arith)
  | .mount host =>
    match host.superBlock with
    | .error _ => []
    | .ok sb => host.mountArith.map fun a => (host.descriptors sb, a)
  | .openFile mount fuel path inum alloc =>
    match s.mounts[mount]? with
    | none => []
    | some m => ((m.fs.openCalls fuel path inum alloc).flatMap (Ext2.Call.arith m.fs)).map
        fun a => (m.descriptors, a)
  | .readFile file offset len =>
    match s.files[file]? with
    | none => []
    | some (m, inode) =>
      -- Only regular files are read.
      if inode.IsReg then (m.fs.readInodeArith inode offset len).map fun a => (m.descriptors, a) else []

/-- The arithmetic of a step is defined. -/
def Defined (s : Ext2State) (op : Op) : Prop := ∀ e ∈ s.arith op, e.2.Defined e.1

/-- The condition on a mount: that of `ext2_mount` on the superblock, if it gets so far. -/
def SoundMount (host : Host) : Prop :=
  ∀ sb, host.superBlock = .ok sb → sb.blocksPerGroup ≠ 0 ∧
    (sb.Supported → host.allocates sb → sb.logBlockSize < 32 ∧
      (¬ (host.readGd sb).1 < 0 →
        sb.logBlockSize < 22 ∧ sb.inodesPerGroup ≠ 0 ∧ sb.groupCount.toInt ≤ host.descriptors sb ∧
          1 / sb.inodesPerGroup < host.descriptors sb))

/-- The condition on a step: a mount is one of a superblock that passes, and every inode that an open loads
is one of a group that has a descriptor. -/
def Sound (s : Ext2State) : Op → Prop
  | .mount host => SoundMount host
  | .openFile mount fuel path inum alloc => ∀ m, s.mounts[mount]? = some m →
      ∀ num, .loadInode num ∈ m.fs.openCalls fuel path inum alloc → m.fs.groupOf num < m.descriptors
  | .readFile _ _ _ => True

end Ext2State

/-! ## What the divisors are -/

namespace Ext2

variable {fs : Ext2} {n : ℕ}

theorem two_pow_block (log : ℕ) : 1024 * 2 ^ log = 2 ^ (log + 10) := by
  rw [pow_add]
  ring

theorem blockSize_of_lt (hlog : fs.logBlockSize < 22) : fs.blockSize = 1024 * 2 ^ fs.logBlockSize := by
  apply Nat.mod_eq_of_lt
  rw [two_pow_block]
  exact Nat.pow_lt_pow_right (by norm_num) (by omega)

/-- The block size is a 32-bit number: it is 0 from 2 ^ 32 bytes on. -/
theorem blockSize_ne_zero_iff : fs.blockSize ≠ 0 ↔ fs.logBlockSize < 22 := by
  constructor
  · intro hne
    by_contra hlog
    have hdvd : 2 ^ 32 ∣ 2 ^ (fs.logBlockSize + 10) := Nat.pow_dvd_pow 2 (by omega)
    apply hne
    rw [blockSize, toUint32, two_pow_block]
    exact Nat.mod_eq_zero_of_dvd hdvd
  · intro hlog
    rw [blockSize_of_lt hlog]
    positivity

theorem addrPerBlock_ne_zero (hlog : fs.logBlockSize < 22) : fs.addrPerBlock ≠ 0 := by
  have hge : 1 ≤ 2 ^ fs.logBlockSize := Nat.one_le_two_pow
  rw [addrPerBlock, blockSize_of_lt hlog]
  omega

/-! ## The arithmetic of the functions -/

theorem blockSizeDiv_defined_iff :
    (∀ a ∈ fs.blockSizeDiv, a.Defined n) ↔ fs.logBlockSize < 22 := by
  simp only [blockSizeDiv, List.forall_mem_cons, List.not_mem_nil, false_implies, implies_true, and_true,
    Arith.Defined, blockSize_ne_zero_iff]
  omega

theorem arith_blockPointerPos (hlog : fs.logBlockSize < 22) (blockToFind : ℕ) :
    ∀ a ∈ fs.blockPointerPosArith blockToFind, a.Defined n := by
  have hper := addrPerBlock_ne_zero hlog
  have hshift : fs.logBlockSize < 32 := by omega
  unfold blockPointerPosArith
  split_ifs with hdirect
  · simp
  simp only [List.forall_mem_cons]
  refine ⟨hshift, ?_⟩
  -- The levels of indirection, that divide by the entries of a block, and by their square.
  split_ifs with hind hdind htind
  · simp
  · simp only [List.forall_mem_cons, Arith.Defined]
    exact ⟨hper, hper, by simp⟩
  · -- There is a block below the product, so that it is not 0.
    have hper2 : toUint32 (fs.addrPerBlock * fs.addrPerBlock) ≠ 0 := by
      intro hzero
      rw [hzero, Nat.zero_mul] at htind
      simp [toUint32] at htind
    simp only [List.forall_mem_cons, Arith.Defined]
    exact ⟨hper2, hper2, hper, hper2, hper, by simp⟩
  · simp

theorem arith_readBlocks (hlog : fs.logBlockSize < 22) (fuel fileBlock len : ℕ) :
    ∀ a ∈ fs.readBlocksArith fuel fileBlock len, a.Defined n := by
  -- Induction on the turns of the loop, for all positions in the file.
  induction fuel generalizing fileBlock len with
  | zero => simp [readBlocksArith]
  | succ fuel ih =>
    unfold readBlocksArith
    rw [List.forall_mem_cons]
    refine ⟨show fs.logBlockSize < 32 by omega, ?_⟩
    split_ifs
    · rw [List.forall_mem_append]
      exact ⟨arith_blockPointerPos hlog fileBlock, ih _ _⟩
    · exact arith_blockPointerPos hlog fileBlock
    · simp

/-- **The arithmetic of a read** is defined for every inode, once the block size fits in its 32 bits. -/
theorem arith_readInode (hlog : fs.logBlockSize < 22) (inode : Inode) (offset len : ℕ) :
    ∀ a ∈ fs.readInodeArith inode offset len, a.Defined n := by
  have hdiv : ∀ a ∈ fs.blockSizeDiv, a.Defined n := blockSizeDiv_defined_iff.mpr hlog
  unfold readInodeArith
  dsimp only
  by_cases hlen : fs.trimLen inode offset len = 0
  · rw [if_pos hlen]
    simp
  rw [if_neg hlen, List.forall_mem_append, List.forall_mem_append]
  refine ⟨⟨hdiv, hdiv⟩, ?_⟩
  split_ifs with hpartial
  · simp only [List.forall_mem_append]
    exact ⟨⟨arith_blockPointerPos hlog _, hdiv⟩, arith_readBlocks hlog _ _ _⟩
  · exact arith_readBlocks hlog _ _ _

/-- The arithmetic of a load is defined for the inodes of the groups that have descriptors. -/
theorem arith_loadInode_iff (num : ℕ) :
    (∀ a ∈ Call.arith fs (.loadInode num), a.Defined n) ↔
      fs.logBlockSize < 22 ∧ fs.inodesPerGroup ≠ 0 ∧ fs.groupOf num < n := by
  simp only [Call.arith, getInodeAddrArith, List.forall_mem_append, List.forall_mem_cons, List.not_mem_nil,
    false_implies, implies_true, and_true, blockSizeDiv_defined_iff]
  simp only [Arith.Defined]
  omega

end Ext2

/-- The loop of `ext2_mount` goes through the descriptors up to the number of groups. -/
theorem forall_gd_iff {groups : Int16} {n : ℕ} :
    (∀ a ∈ (List.range groups.toInt.toNat).map Arith.gd, a.Defined n) ↔ groups.toInt ≤ n := by
  rw [List.forall_mem_map]
  constructor
  · intro h
    by_contra hlt
    -- The first index past the descriptors is one that the loop gets to.
    have hmem : n ∈ List.range groups.toInt.toNat := by
      rw [List.mem_range]
      omega
    exact absurd (h n hmem) (lt_irrefl n)
  · intro h i hi
    rw [List.mem_range] at hi
    show i < n
    omega

/-- The condition on a mount, with the superblock that is read. -/
theorem Ext2State.soundMount_iff {host : Host} {sb : SuperBlock} (hsb : host.superBlock = .ok sb) :
    SoundMount host ↔ sb.blocksPerGroup ≠ 0 ∧
      (sb.Supported → host.allocates sb → sb.logBlockSize < 32 ∧
        (¬ (host.readGd sb).1 < 0 →
          sb.logBlockSize < 22 ∧ sb.inodesPerGroup ≠ 0 ∧ sb.groupCount.toInt ≤ host.descriptors sb ∧
            1 / sb.inodesPerGroup < host.descriptors sb)) := by
  refine ⟨fun h => h sb hsb, fun h sb' hsb' => ?_⟩
  obtain rfl : sb = sb' := Except.ok.inj (hsb.symm.trans hsb')
  exact h

/-- **The mounts with defined arithmetic** are those of the superblocks that pass. -/
theorem Host.mount_defined_iff (host : Host) {sb : SuperBlock} (hsb : host.superBlock = .ok sb) :
    (∀ a ∈ host.mountArith, a.Defined (host.descriptors sb)) ↔ Ext2State.SoundMount host := by
  have hroot : ∀ gd, (host.ext2 sb gd).groupOf rootIno = 1 / sb.inodesPerGroup := fun gd => rfl
  rw [Ext2State.soundMount_iff hsb]
  unfold mountArith
  rw [hsb]
  dsimp only
  -- The operations are made one after the other, each if the tests before it have passed.
  rw [List.forall_mem_cons]
  refine and_congr Iff.rfl ?_
  by_cases hrejected : ¬ sb.Supported ∨ ¬ host.allocates sb
  · rw [if_pos hrejected]
    refine iff_of_true (by simp) fun hs ha => ?_
    exact absurd hrejected (by simp [hs, ha])
  obtain ⟨hs, ha⟩ := not_or.mp hrejected
  rw [if_neg hrejected, List.forall_mem_cons]
  simp only [not_not.mp hs, not_not.mp ha, true_implies]
  refine and_congr Iff.rfl ?_
  by_cases herr : (host.readGd sb).1 < 0
  · simp [herr]
  rw [if_neg herr, List.forall_mem_append, Ext2.arith_loadInode_iff, forall_gd_iff, hroot]
  simp only [herr, not_false_eq_true, true_implies]
  constructor
  · rintro ⟨hgroups, hlog, hipg, hlt⟩
    exact ⟨hlog, hipg, hgroups, hlt⟩
  · rintro ⟨hlog, hipg, hgroups, hlt⟩
    exact ⟨hgroups, hlog, hipg, hlt⟩

/-! ## Runs -/

namespace Ext2State

variable {s s' : Ext2State}

/-- The divisors and the shifts of a mounted file system are defined. -/
def Mountable (m : Mounted) : Prop := m.fs.logBlockSize < 22 ∧ m.fs.inodesPerGroup ≠ 0

/-- The file systems that are mounted, and those of the open files, are ones whose arithmetic is defined. -/
structure Inv (s : Ext2State) : Prop where
  mounts : ∀ m ∈ s.mounts, Mountable m
  files : ∀ f ∈ s.files, Mountable f.1

theorem inv_initial : initial.Inv := ⟨by simp [initial], by simp [initial]⟩

/-- A mount that returns has loaded the root inode. -/
theorem mountable_of_ok {host : Host} {m : Mounted} (h : host.ext2Mount = .ok m) (hsound : SoundMount host) :
    Mountable m := by
  unfold Host.ext2Mount at h
  cases hsb : host.superBlock with
  | error err =>
    rw [hsb] at h
    cases h
  | ok sb =>
    rw [hsb] at h
    change (if ¬ sb.Supported then _ else _) = _ at h
    -- The tests of the superblock are passed, and those of the condition apply.
    split_ifs at h with hs ha
    obtain ⟨-, hrest⟩ := hsound sb hsb
    obtain ⟨-, hread⟩ := hrest hs ha
    cases hgd : host.readGd sb with
    | mk err gd =>
      rw [hgd] at h hread
      dsimp only at h
      split_ifs at h with herr
      obtain ⟨hlog, hipg, -⟩ := hread herr
      cases hroot : (host.ext2 sb gd).ext2LoadInode Host.rootIno with
      | error err =>
        rw [hroot] at h
        cases h
      | ok root =>
        rw [hroot] at h
        obtain rfl := Except.ok.inj h
        exact ⟨hlog, hipg⟩

/-- The arithmetic of a step is defined if and only if the step is sound. -/
theorem Inv.defined_iff (h : s.Inv) (op : Op) : s.Defined op ↔ s.Sound op := by
  unfold Defined
  cases op with
  | mount host =>
    cases hsb : host.superBlock with
    | error err =>
      refine iff_of_true (by simp [arith, hsb]) fun sb hsb' => ?_
      rw [hsb] at hsb'
      cases hsb'
    | ok sb =>
      simp only [arith, hsb, List.forall_mem_map]
      exact host.mount_defined_iff hsb
  | openFile mount fuel path inum alloc =>
    cases hm : s.mounts[mount]? with
    | none => exact iff_of_true (by simp [arith, hm]) (by simp [Sound, hm])
    | some m =>
      obtain ⟨hlog, hipg⟩ := h.mounts m (List.mem_of_getElem? hm)
      simp only [arith, hm, List.forall_mem_map, List.forall_mem_flatMap, Sound, Option.some.injEq,
        forall_eq']
      -- The reads are defined once mounted, so that only the loads are left to the step.
      constructor
      · intro hdef num hmem
        exact ((Ext2.arith_loadInode_iff num).mp (hdef _ hmem)).2.2
      · intro hsound call hcall
        cases call with
        | loadInode num => exact (Ext2.arith_loadInode_iff num).mpr ⟨hlog, hipg, hsound num hcall⟩
        | readInode inode offset len => exact Ext2.arith_readInode hlog inode offset len
  | readFile file offset len =>
    refine iff_of_true ?_ trivial
    cases hf : s.files[file]? with
    | none => simp [arith, hf]
    | some f =>
      obtain ⟨m, inode⟩ := f
      obtain ⟨hlog, -⟩ := h.files _ (List.mem_of_getElem? hf)
      simp only [arith, hf]
      split_ifs
      · rw [List.forall_mem_map]
        exact Ext2.arith_readInode hlog inode offset len
      · simp

/-- A step whose arithmetic is defined leaves file systems whose arithmetic is. -/
theorem Inv.step {op : Op} (h : s.Inv) (hdef : s.Defined op) (hs : s.step op = some s') : s'.Inv := by
  cases op with
  | mount host =>
    have hsound : SoundMount host := (h.defined_iff (.mount host)).mp hdef
    unfold Ext2State.step at hs
    cases hm : host.ext2Mount with
    | error err =>
      simp only [hm] at hs
      exact Option.some.inj hs ▸ h
    | ok m =>
      simp only [hm] at hs
      obtain rfl := Option.some.inj hs
      refine ⟨?_, h.files⟩
      rw [List.forall_mem_append, List.forall_mem_singleton]
      exact ⟨h.mounts, mountable_of_ok hm hsound⟩
  | openFile mount fuel path inum alloc =>
    obtain ⟨m, hm, rfl⟩ := Option.map_eq_some_iff.mp hs
    split
    · exact h
    · refine ⟨h.mounts, ?_⟩
      rw [List.forall_mem_append, List.forall_mem_singleton]
      exact ⟨h.files, h.mounts m (List.mem_of_getElem? hm)⟩
  | readFile file offset len =>
    obtain ⟨f, -, rfl⟩ := Option.map_eq_some_iff.mp hs
    exact h

end Ext2State

/-- **The arithmetic of ext2, exactly.** In every sequence of mounts, opens and reads, whatever the devices
return: all divisions, shifts and accesses to group descriptors of `ext2_mount`, `get_inode_addr` and
`ext2_read_inode` are defined, if and only if every mount is one of a superblock that passes, and every inode
that an open loads is one of a group that has a descriptor. -/
theorem ext2_arith_defined_iff (ops : List Ext2State.Op) :
    Steps Ext2State.step Ext2State.Defined Ext2State.initial ops ↔
      Steps Ext2State.step Ext2State.Sound Ext2State.initial ops :=
  steps_congr (fun _ op h => h.defined_iff op) (fun _ _ _ h hdef hs => h.step hdef hs) Ext2State.inv_initial

/-- A device with a superblock that has the magic number and says 0 for everything else. -/
def Host.zeros : Host where
  blkRead _ len := (Int16.ofNat len, (List.replicate 56 0 ++ [0x53, 0xEF]) ++ List.replicate (len - 58) 0)
  allocExt2 := true
  allocGd _ := true
  alloc _ := true
  fresh := []

/-- Its mount divides by the number of blocks in a group, 0. -/
theorem not_steps_defined_zeros :
    ¬ Steps Ext2State.step Ext2State.Defined Ext2State.initial [.mount Host.zeros] := by
  have hsb : Host.zeros.superBlock = .ok ⟨0, 0, 0, 0, 0xEF53, 0, 0, 0⟩ := by rfl
  rintro ⟨hdef, -⟩
  have hsound := (Ext2State.inv_initial.defined_iff (.mount Host.zeros)).mp hdef
  exact (hsound _ hsb).1 rfl

end I80k.Kernel

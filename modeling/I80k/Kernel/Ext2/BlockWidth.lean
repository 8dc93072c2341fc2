import I80k.Kernel.Ext2.BlockMap

/-!
# Where block numbers are cut

A logical block number of more than 16 bits is another one in `ext2_read_inode`, and the number of an
indirect block loses its high bits on the way down. This module shows that both happen on real
images: for every logical block that they can happen to there is an inode, with the pointers of a
single block of data, on which the driver takes the wrong block.

## Main definitions

* `chainInode`, `chainDisk`: an inode whose only pointers are those of one path
* `Ext2.serving`: a file system on a given disk
* `MapsAll`: the driver is right on all images and inodes, for one logical block number

## Main results

* `follow_chain`: on such an inode every other path ends in a hole
* `ext2_maps_block_iff`: the logical blocks, and the sizes of disks, for which the driver is right
-/

namespace I80k.Kernel

/-! ## Disks from tables of pointers -/

/-- The disk whose block `b` has the pointer `table b j` at position `j`. -/
def ofTable (bs : ℕ) (table : ℕ → ℕ → ℕ) (a : ℕ) : UInt8 :=
  UInt8.ofNat (table (a / bs) (a % bs / 4) / 2 ^ (8 * (a % 4)))

theorem ofTable_apply {bs b j i : ℕ} (table : ℕ → ℕ → ℕ) (hbs : bs % 4 = 0) (hj : j < bs / 4)
    (hi : i < 4) :
    (ofTable bs table (b * bs + 4 * j + i)).toNat = table b j / 2 ^ (8 * i) % 2 ^ 8 := by
  have hlt : 4 * j + i < bs := by omega
  have hdiv : (b * bs + 4 * j + i) / bs = b := by
    rw [Nat.add_assoc, mul_comm, Nat.mul_add_div (by omega), Nat.div_eq_of_lt hlt, Nat.add_zero]
  have hmod : (b * bs + 4 * j + i) % bs = 4 * j + i := by
    rw [Nat.add_assoc, mul_comm, Nat.mul_add_mod, Nat.mod_eq_of_lt hlt]
  have hmod4 : (b * bs + 4 * j + i) % 4 = i := by
    obtain ⟨q, hq⟩ : ∃ q, b * bs = 4 * q := ⟨b * (bs / 4), by
      rw [← Nat.mul_assoc, mul_comm 4 b, Nat.mul_assoc]
      congr 1
      omega⟩
    omega
  rw [ofTable, hdiv, hmod, hmod4, show (4 * j + i) / 4 = j by omega]
  simp

theorem pointer_ofTable {bs b j : ℕ} (table : ℕ → ℕ → ℕ) (hbs : bs % 4 = 0) (hj : j < bs / 4)
    (hlt : table b j < 2 ^ 32) :
    pointer (ofTable bs table) bs b j = if b = 0 then 0 else table b j := by
  rw [pointer]
  split_ifs with h₀
  · rfl
  · have h := fun i hi => ofTable_apply (b := b) (i := i) table hbs hj hi
    have h0 := h 0 (by norm_num)
    have h1 := h 1 (by norm_num)
    have h2 := h 2 (by norm_num)
    have h3 := h 3 (by norm_num)
    simp only [Nat.add_zero] at h0
    rw [diskLe32, h0, h1, h2, h3]
    norm_num
    omega

/-! ## An inode with one path -/

section Chain

variable (bs first : ℕ) (path : List ℕ)

/-- The block that the path goes through after `k` pointers. -/
def chainBlock (k : ℕ) : ℕ := if k = 1 then first else k

/-- Position `path[k]` of the block after `k` pointers holds the next block, and nothing else is
there. -/
def chainTable (b j : ℕ) : ℕ :=
  let k := if b = first then 1 else b
  if path[k]? = some j then k + 1 else 0

def chainDisk : ℕ → UInt8 := ofTable bs (chainTable first path)

/-- The inode that has only the pointers of `path`. -/
def chainInode (size : ℕ) : Inode where
  mode := 0x8000
  size := size
  block := (List.range 15).map fun i => if path.head? = some i then first else 0

variable {bs first path}

theorem chainTable_le (first : ℕ) (path : List ℕ) (b j : ℕ) : chainTable first path b j ≤ path.length := by
  rw [chainTable]
  split_ifs with h₁ h₂ h₂
  · exact (List.getElem?_eq_some_iff.mp h₂).1
  · exact Nat.zero_le _
  · exact (List.getElem?_eq_some_iff.mp h₂).1
  · exact Nat.zero_le _

theorem follow_zero (disk : ℕ → UInt8) (q : List ℕ) : follow disk bs 0 q = 0 := by
  induction q with
  | nil => rfl
  | cons j q ih => simpa [follow, pointer] using ih

/-- **One path**: from the block after `k` pointers the rest of the path leads to its end, and every
other way of the same length into a hole. -/
theorem follow_chain (hbs : bs % 4 = 0) (hfirst : first = 1 ∨ path.length < first)
    (hlen : path.length < 2 ^ 32) (q : List ℕ) :
    ∀ {k : ℕ}, 1 ≤ k → k + q.length = path.length → (∀ j ∈ q, j < bs / 4) →
      follow (chainDisk bs first path) bs (chainBlock first k) q =
        if q = path.drop k then chainBlock first path.length else 0 := by
  -- Along the rest `q` of the path, from the block that the first `k` pointers lead to.
  induction q with
  | nil =>
    intro k _ hk _
    have hk' : k = path.length := by simpa using hk
    subst hk'
    simp [follow]
  | cons j q ih =>
    intro k hk hlen' hj
    have hklt : k < path.length := by
      rw [List.length_cons] at hlen'
      omega
    -- The table finds the place on the path from the number of the block.
    have hindex : (if chainBlock first k = first then 1 else chainBlock first k) = k := by
      rw [chainBlock]
      rcases hfirst with rfl | hfirst
      · by_cases h₁ : k = 1
        · simp [h₁]
        · simp [h₁]
      · by_cases h₁ : k = 1
        · simp [h₁]
        · simp [h₁, show k ≠ first by omega]
    have hne : chainBlock first k ≠ 0 := by
      rw [chainBlock]
      split_ifs
      · omega
      · omega
    have hdrop : path.drop k = path[k] :: path.drop (k + 1) := List.drop_eq_getElem_cons hklt
    -- The block has one pointer, at the next position of the path.
    have hpointer : pointer (chainDisk bs first path) bs (chainBlock first k) j =
        if path[k] = j then k + 1 else 0 := by
      rw [chainDisk, pointer_ofTable _ hbs (hj j List.mem_cons_self)
        (lt_of_le_of_lt (chainTable_le _ _ _ _) hlen), if_neg hne, chainTable]
      simp only [hindex, List.getElem?_eq_getElem hklt, Option.some.injEq]
    have hfollow : follow (chainDisk bs first path) bs (chainBlock first k) (j :: q) =
        follow (chainDisk bs first path) bs
          (pointer (chainDisk bs first path) bs (chainBlock first k) j) q := rfl
    rw [hfollow, hpointer, hdrop]
    by_cases hjk : path[k] = j
    · have hrec := ih (k := k + 1) (by omega) (by rw [List.length_cons] at hlen'; omega)
        (fun j' hj' => hj j' (List.mem_cons_of_mem _ hj'))
      have hblock : chainBlock first (k + 1) = k + 1 := by
        rw [chainBlock, if_neg (by omega)]
      rw [hblock] at hrec
      rw [if_pos hjk, hrec, hjk]
      simp
    · -- Off the path there is a hole, and nothing leads out of it.
      rw [if_neg hjk, follow_zero, if_neg]
      intro he
      exact hjk (List.cons.inj he).1.symm

end Chain

/-! ## Paths determine logical blocks -/

section Path

variable {p m n : ℕ}

/-- The logical block at the end of a path. -/
def pathBlock (p : ℕ) : List ℕ → ℕ
  | [i] => i
  | [_, j] => 12 + j
  | [_, j, k] => 12 + p + (p * j + k)
  | [_, j, k, l] => 12 + p + p * p + (p * (p * j + k) + l)
  | _ => 0

theorem pathBlock_pointerPath (n : ℕ) : pathBlock p (pointerPath p n) = n := by
  rw [pointerPath]
  split_ifs with h₁ h₂ h₃
  · rfl
  · rw [pathBlock]
    omega
  · rw [pathBlock, Nat.div_add_mod]
    omega
  · rw [pathBlock, ← Nat.div_div_eq_div_mul, Nat.div_add_mod, Nat.div_add_mod]
    omega

theorem pointerPath_inj (h : pointerPath p m = pointerPath p n) : m = n := by
  rw [← pathBlock_pointerPath (p := p) m, h, pathBlock_pointerPath]

/-- The first position of a path tells its length. -/
theorem pointerPath_shape (p n : ℕ) : (n < 12 ∧ pointerPath p n = [n]) ∨ 12 ≤ n ∧
    ∃ level rest, 1 ≤ level ∧ level ≤ 3 ∧ rest.length = level ∧ pointerPath p n = (11 + level) :: rest := by
  rw [pointerPath]
  split_ifs with h₁ h₂ h₃
  · exact Or.inl ⟨h₁, rfl⟩
  · exact Or.inr ⟨not_lt.mp h₁, 1, _, by norm_num, by norm_num, rfl, rfl⟩
  · exact Or.inr ⟨not_lt.mp h₁, 2, _, by norm_num, by norm_num, rfl, rfl⟩
  · exact Or.inr ⟨not_lt.mp h₁, 3, _, by norm_num, by norm_num, rfl, rfl⟩

/-- On the inode of one path, all other logical blocks are holes. -/
theorem designated_chain {bs first size : ℕ} (hbs : bs % 4 = 0) (hpos : 0 < bs / 4)
    (hfirst : first = 1 ∨ 4 < first) (hn : 12 ≤ n)
    (hm : m < 12 + bs / 4 + bs / 4 * (bs / 4) + bs / 4 * (bs / 4) * (bs / 4)) :
    designated (chainDisk bs first (pointerPath (bs / 4) n)) bs
        (chainInode first (pointerPath (bs / 4) n) size) m =
      if m = n then (pointerPath (bs / 4) n).length else 0 := by
  obtain ⟨level, rest, h₁, h₃, hrest, hpath⟩ :=
    ((pointerPath_shape (bs / 4) n).resolve_left fun h => absurd h.1 (not_lt.mpr hn)).2
  set path := pointerPath (bs / 4) n with hdef
  have hlen : path.length = level + 1 := by rw [hpath, List.length_cons, hrest]
  -- The inode has one pointer, that of the level of `n`.
  have hblock : ∀ i < 15, (chainInode first path size).block.getD i 0 =
      if 11 + level = i then first else 0 := by
    intro i hi
    simp [chainInode, List.getD_eq_getElem?_getD, hi, hpath]
  have hlt : ∀ j ∈ (pointerPath (bs / 4) m).tail, j < bs / 4 :=
    fun j hj => Ext2.lt_of_mem_pointerPath hpos hm hj
  rw [designated]
  rcases pointerPath_shape (bs / 4) m with ⟨hm', hpath'⟩ | ⟨hm', level', rest', h₁', h₃', hrest', hpath'⟩
  · -- A direct block has no pointer, as `n` is not direct.
    rw [if_neg (by omega), hpath']
    simp only [List.headD_cons, List.tail_cons]
    rw [hblock m (by omega), if_neg (by omega), follow_zero]
  · rw [hpath'] at hlt ⊢
    simp only [List.headD_cons, List.tail_cons] at hlt ⊢
    rw [hblock _ (by omega)]
    by_cases hlevel : level = level'
    · subst hlevel
      rw [if_pos rfl]
      have hfirst' : first = 1 ∨ path.length < first := by
        rw [hlen]
        omega
      have hsmall : path.length < 2 ^ 32 := by
        rw [hlen]
        omega
      have htotal : 1 + rest'.length = path.length := by
        rw [hlen, hrest', Nat.add_comm]
      -- The same level: the paths agree up to the end, or part.
      have hfollow := follow_chain hbs hfirst' hsmall rest' le_rfl htotal hlt
      have hend : chainBlock first path.length = path.length := by
        rw [chainBlock, if_neg (by omega)]
      have hstart : chainBlock first 1 = first := if_pos rfl
      rw [hstart, hend] at hfollow
      rw [hfollow, hpath, List.drop_succ_cons, List.drop_zero]
      by_cases hmn : m = n
      · subst hmn
        rw [hdef, hpath'] at hpath
        rw [if_pos (List.cons.inj hpath).2, if_pos rfl]
      · rw [if_neg hmn, if_neg]
        rintro rfl
        exact hmn (pointerPath_inj (hpath'.trans (hpath.symm.trans hdef)))
    · -- Another level: its pointer in the inode is a hole.
      rw [if_neg (fun he => hlevel (by omega)), follow_zero, if_neg]
      rintro rfl
      have := (List.cons.inj (hpath'.symm.trans (hdef.symm.trans hpath))).1
      omega

end Path

/-! ## Images on which the driver is wrong -/

/-- A file system with blocks of `1024 * 2 ^ log` bytes on a disk that is read without errors. -/
def Ext2.serving (log : ℕ) (disk : ℕ → UInt8) : Ext2 where
  logBlockSize := log
  inodesPerGroup := 64
  inodeSize := 128
  featureRoCompat := 0
  inodeTable := fun _ => 5
  rootInode := ⟨0x41ED, 0, []⟩
  blkRead := fun offset len => (Int16.ofNat len, (List.range len).map fun i => disk (offset + i))
  alloc := fun _ => true
  fresh := []

theorem Ext2.serves_serving (log : ℕ) (disk : ℕ → UInt8) : (Ext2.serving log disk).Serves disk where
  result offset len hlen _ := by
    rw [Int16.le_iff_toInt_le]
    simp only [Ext2.serving, int16_toInt_of_lt (show len < 2 ^ 15 by omega)]
    simp
  bytes offset len _ _ := rfl
  alloc _ := rfl

/-- The pointers of the blocks on one path are small numbers. -/
theorem within_chain {bs first count : ℕ} {path : List ℕ} (hbs : bs % 4 = 0) (hcount : path.length < count)
    (hlen : path.length < 2 ^ 32) (depth : ℕ) :
    ∀ b < count, Within (chainDisk bs first path) bs count depth b := by
  induction depth with
  | zero => exact fun _ hb => hb
  | succ depth ih =>
    intro b hb
    refine ⟨hb, fun j hj => ih _ ?_⟩
    have hle := chainTable_le first path b j
    rw [chainDisk, pointer_ofTable _ hbs hj (by omega)]
    split_ifs
    · omega
    · omega

/-- So are those of its inode, the first one apart. -/
theorem block_chainInode_lt {first count size : ℕ} {path : List ℕ} (hcount : 0 < count)
    (hfirst : first < count) (i : ℕ) : (chainInode first path size).block.getD i 0 < count := by
  by_cases hi : i < 15
  · simp only [chainInode, List.getD_eq_getElem?_getD, List.getElem?_map, List.getElem?_range hi]
    simp only [Option.map_some, Option.getD_some]
    split_ifs
    · exact hfirst
    · exact hcount
  · have hnone : ((chainInode first path size).block)[i]? = none := by
      simpa [chainInode] using not_lt.mp hi
    rw [List.getD_eq_getElem?_getD, hnone, Option.getD_none]
    exact hcount

theorem consistent_chain {bs first count p n size : ℕ} (hbs : bs % 4 = 0) (hcount : 16 ≤ count)
    (hfirst : first < count) :
    Consistent (chainDisk bs first (pointerPath p n)) bs count
      (chainInode first (pointerPath p n) size) := by
  have hlen : (pointerPath p n).length ≤ 4 := by
    rw [pointerPath]
    split_ifs <;> simp
  have hblock := @block_chainInode_lt first count size (pointerPath p n) (by omega) hfirst
  refine ⟨by simp [chainInode], fun i _ => hblock i, fun level _ _ => ?_⟩
  exact within_chain hbs (by omega) (by omega) level _ (hblock _)

/-- The read of the first byte of logical block `n`, the last byte of the file. -/
theorem Ext2.uses_firstByte (fs : Ext2) (n : ℕ) (inode : Inode) (hpos : 1 < fs.blockSize)
    (hsize : inode.size = n * fs.blockSize + 1) (hlt : n * fs.blockSize + 1 < 2 ^ 31)
    (hfeature : fs.featureRoCompat = 0) :
    (fs.ext2ReadInode inode (n * fs.blockSize) 1).2.uses =
      [⟨n * fs.blockSize, 1, fs.fileBlockToFsBlock inode (toUint n)⟩] := by
  have htrim : fs.trimLen inode (n * fs.blockSize) 1 = 1 := by
    simp only [trimLen, ext2FileLen, hfeature, hsize, Nat.zero_and, ne_eq, not_true_eq_false, false_and,
      if_false]
    rw [toOff_of_lt hlt, toOff_of_lt (by omega), if_neg (by omega), if_pos (by omega)]
    omega
  have hdiv : n * fs.blockSize / fs.blockSize = n := Nat.mul_div_cancel _ (by omega)
  simp [ext2ReadInode, htrim, hdiv, readBlocks, copyOut, not_le.mpr hpos]

/-- The driver takes the bytes of logical block `n` from the designated block, on all images with
`count` blocks of `1024 * 2 ^ log` bytes and for all inodes of less than 2 GiB. -/
def MapsAll (log count n : ℕ) : Prop :=
  ∀ (fs : Ext2) (disk : ℕ → UInt8) (inode : Inode) (offset : ℕ), fs.logBlockSize = log →
    fs.Serves disk → Consistent disk fs.blockSize count inode → inode.size < 2 ^ 31 →
    offset < inode.size → offset / fs.blockSize = n → fs.Maps disk inode offset

/-- A read whose logical block and indirect blocks have numbers of 16 bits uses the designated
block. -/
theorem Ext2.Serves.maps {fs : Ext2} {disk : ℕ → UInt8} {inode : Inode} {offset : ℕ}
    (h : fs.Serves disk) (hlog : fs.logBlockSize ≤ 2) (hn : offset / fs.blockSize < 2 ^ 16)
    (hnarrow : inode.Narrow disk fs.blockSize (offset / fs.blockSize)) : fs.Maps disk inode offset := by
  obtain ⟨-, hlo, hhi, hper⟩ := Ext2.blockSize_of_le hlog
  intro start len use huse ho ho'
  obtain ⟨hblock, hsame⟩ := Ext2.uses_readInode (by omega) start len use huse
  have hn' : toUint (use.offset / fs.blockSize) = offset / fs.blockSize := by
    rw [← hsame offset ho ho']
    exact Nat.mod_eq_of_lt hn
  rw [hblock, hn']
  exact h.fileBlockToFsBlock hlog (Ext2.lt_reach (by omega) (by omega)) hnarrow

/-- On the inode of one path the driver is right only if the first read is. -/
theorem MapsAll.firstByte {log count n : ℕ} (h : MapsAll log count n) (first : ℕ) (hlog : log ≤ 2)
    (hcount : 16 ≤ count) (hlt : n * (1024 * 2 ^ log) + 1 < 2 ^ 31) (hfirst : first < count)
    (hfirst' : first = 1 ∨ 4 < first) (hn : 12 ≤ n) :
    (Ext2.serving log (chainDisk (1024 * 2 ^ log) first (pointerPath (256 * 2 ^ log) n))).fileBlockToFsBlock
        (chainInode first (pointerPath (256 * 2 ^ log) n) (n * (1024 * 2 ^ log) + 1)) (toUint n) =
      (pointerPath (256 * 2 ^ log) n).length := by
  set bs := 1024 * 2 ^ log with hbs
  set path := pointerPath (256 * 2 ^ log) n with hpath
  set fs := Ext2.serving log (chainDisk bs first path) with hfs
  have hsize : fs.blockSize = bs := (Ext2.blockSize_of_le (show fs.logBlockSize ≤ 2 from hlog)).1
  obtain ⟨-, hlo, hhi, hper⟩ := Ext2.blockSize_of_le (show fs.logBlockSize ≤ 2 from hlog)
  have hper' : bs / 4 = 256 * 2 ^ log := by omega
  have hbs4 : bs % 4 = 0 := by omega
  -- The read of that byte uses one block, the one the driver maps `n` to.
  have huse := Ext2.uses_firstByte fs n (chainInode first path (n * bs + 1)) (by omega)
    (by rw [hsize]; rfl) (by rwa [hsize]) rfl
  have hmaps := h fs (chainDisk bs first path) (chainInode first path (n * bs + 1)) (n * bs) rfl
    (Ext2.serves_serving log _) (hsize.symm ▸ consistent_chain hbs4 hcount hfirst) hlt
    (Nat.lt_succ_self _) (by rw [hsize]; exact Nat.mul_div_cancel _ (by omega)) (n * bs) 1
  rw [hsize] at huse hmaps
  rw [huse] at hmaps
  -- It is right there, so that it is the designated block.
  have hblock := hmaps _ List.mem_cons_self le_rfl (Nat.lt_succ_self _)
  rw [Nat.mul_div_cancel _ (show 0 < bs by omega)] at hblock
  dsimp only at hblock
  -- The file has less than 2 GiB, and so less than 2 ^ 21 blocks.
  have hn' : n < 2 ^ 21 := by
    have hle : n * 1024 ≤ n * bs := Nat.mul_le_mul_left n (by omega)
    omega
  have hreach := Ext2.lt_reach (show 256 ≤ bs / 4 by omega) (show n < 2 ^ 24 by omega)
  rw [hblock, hpath, ← hper', designated_chain hbs4 (by omega) hfirst' hn hreach, if_pos rfl]

/-- A logical block of more than 16 bits is mapped as another one, which can be a hole. -/
theorem MapsAll.lt {log count n : ℕ} (h : MapsAll log count n) (hlog : log ≤ 2) (hcount : 16 ≤ count)
    (hlt : n * (1024 * 2 ^ log) + 1 < 2 ^ 31) : n < 2 ^ 16 := by
  by_contra hn
  have hfirst := h.firstByte 1 hlog hcount hlt (by omega) (Or.inl rfl) (by omega)
  set bs := 1024 * 2 ^ log with hbs
  set path := pointerPath (256 * 2 ^ log) n with hpath
  set fs := Ext2.serving log (chainDisk bs 1 path) with hfs
  obtain ⟨hsize, hlo, hhi, hper⟩ := Ext2.blockSize_of_le (show fs.logBlockSize ≤ 2 from hlog)
  have hsize' : fs.blockSize = bs := hsize
  have hper' : bs / 4 = 256 * 2 ^ log := by omega
  have hbs4 : bs % 4 = 0 := by omega
  -- The driver looks for `n` without its high bits, which is another block, and a hole.
  have hm : toUint n < 2 ^ 16 := Nat.mod_lt _ (by norm_num)
  have hreach := Ext2.lt_reach (show 256 ≤ bs / 4 by omega) (show toUint n < 2 ^ 24 by omega)
  have hper₂ : fs.addrPerBlock = bs / 4 := by omega
  have hnarrow : (chainInode 1 path (n * bs + 1)).Narrow (chainDisk bs 1 path) fs.blockSize (toUint n) := by
    rw [hsize']
    exact Ext2.narrow_of_consistent (consistent_chain hbs4 (le_refl 16) (by norm_num)) (by norm_num)
      (by omega) hreach
  rw [(Ext2.serves_serving log _).fileBlockToFsBlock hlog (by rw [← hfs, hper₂]; exact hreach) hnarrow,
    ← hfs, hsize', hpath, ← hper', designated_chain hbs4 (by omega) (Or.inl rfl) (by omega) hreach,
    if_neg (by omega)] at hfirst
  rcases pointerPath_shape (bs / 4) n with ⟨h₁, -⟩ | ⟨-, level, rest, -, -, -, hp⟩
  · omega
  · rw [hp] at hfirst
    simp at hfirst

/-- The number of an indirect block of more than 16 bits is cut, and block 0 is a hole. -/
theorem MapsAll.count_le {log count n : ℕ} (h : MapsAll log count n) (hlog : log ≤ 2)
    (hcount : 16 ≤ count) (hlt : n * (1024 * 2 ^ log) + 1 < 2 ^ 31) (hn : n < 2 ^ 16) (h₁₂ : 12 ≤ n) :
    count ≤ 2 ^ 16 := by
  by_contra hbig
  have hfirst := h.firstByte (2 ^ 16) hlog hcount hlt (by omega) (Or.inr (by norm_num)) h₁₂
  set bs := 1024 * 2 ^ log with hbs
  set path := pointerPath (256 * 2 ^ log) n with hpath
  set fs := Ext2.serving log (chainDisk bs (2 ^ 16) path) with hfs
  obtain ⟨hsize, hlo, hhi, hper⟩ := Ext2.blockSize_of_le (show fs.logBlockSize ≤ 2 from hlog)
  have hsize' : fs.blockSize = bs := hsize
  have hper' : fs.blockSize / 4 = 256 * 2 ^ log := by omega
  have hn' : toUint n = n := Nat.mod_eq_of_lt hn
  have hreach := Ext2.lt_reach (show 256 ≤ fs.addrPerBlock by omega) (show n < 2 ^ 24 by omega)
  have hcalc := Ext2.calculateBlockPointerPos_eq hlog hreach
  rw [hper', ← hpath] at hcalc
  obtain ⟨level, rest, h₁, h₃, hrest, hp⟩ :=
    ((pointerPath_shape (256 * 2 ^ log) n).resolve_left fun h => absurd h.1 (not_lt.mpr h₁₂)).2
  rw [← hpath] at hp
  -- The first pointer is 2 ^ 16, and nothing is left of it in 16 bits.
  have hhead : toUint ((chainInode (2 ^ 16) path (n * bs + 1)).block.getD (path.headD 0) 0) = 0 := by
    have hi : 11 + level < 15 := by omega
    simp [chainInode, List.getD_eq_getElem?_getD, hp, hi, toUint]
  have hdig : ∀ between, fs.digDown 0 between = .error (-1) := by
    intro between
    cases between <;> rfl
  rw [hn', Ext2.fileBlockToFsBlock, hcalc, Option.getD_some,
    if_neg (by rw [hp, List.length_cons]; omega), Ext2.ext2GetIndirectBlockPointerCacheBlock, hhead, hdig,
    hp] at hfirst
  simp [Ext2.tableEntry] at hfirst

/-- **The block of a byte, exactly.** A read uses the block that the disk designates for a byte whose
logical block number, and the numbers of the indirect blocks above it, have 16 bits. For a logical
block `n` that is so on every image with `count` blocks if and only if `n` has 16 bits, and is a direct
block or there are at most `2 ^ 16` blocks. -/
theorem ext2_maps_block_iff (log count n : ℕ) (hlog : log ≤ 2) (hcount : 16 ≤ count)
    (hlt : n * (1024 * 2 ^ log) + 1 < 2 ^ 31) :
    (∀ (fs : Ext2) (disk : ℕ → UInt8) (inode : Inode) (offset : ℕ), fs.logBlockSize ≤ 2 →
      fs.Serves disk → offset / fs.blockSize < 2 ^ 16 →
      inode.Narrow disk fs.blockSize (offset / fs.blockSize) → fs.Maps disk inode offset) ∧
    (MapsAll log count n ↔ n < 2 ^ 16 ∧ (n < 12 ∨ count ≤ 2 ^ 16)) := by
  refine ⟨fun fs disk inode offset hfs hserves hn hnarrow => hserves.maps hfs hn hnarrow,
    fun h => ?_, fun ⟨hn, hsmall⟩ => ?_⟩
  · have hn := h.lt hlog hcount hlt
    refine ⟨hn, ?_⟩
    rcases lt_or_ge n 12 with h₁₂ | h₁₂
    · exact Or.inl h₁₂
    · exact Or.inr (h.count_le hlog hcount hlt hn h₁₂)
  · intro fs disk inode offset hfs hserves hcons hsize hoff hdiv
    subst hfs
    obtain ⟨-, hlo, hhi, hper⟩ := Ext2.blockSize_of_le hlog
    refine hserves.maps hlog (hdiv ▸ hn) ?_
    rw [hdiv]
    rcases hsmall with h₁₂ | hle
    · rw [Inode.Narrow, pointerPath, if_pos h₁₂]
      trivial
    · exact Ext2.narrow_of_consistent hcons hle (by omega) (Ext2.lt_reach (by omega) (by omega))

/-- A direct block on a disk of 128 MiB, with blocks of 1 KiB. -/
theorem ext2_maps_block_direct :
    (∀ (fs : Ext2) (disk : ℕ → UInt8) (inode : Inode) (offset : ℕ), fs.logBlockSize ≤ 2 →
      fs.Serves disk → offset / fs.blockSize < 2 ^ 16 →
      inode.Narrow disk fs.blockSize (offset / fs.blockSize) → fs.Maps disk inode offset) ∧
    (MapsAll 0 131072 5 ↔ 5 < 2 ^ 16 ∧ (5 < 12 ∨ 131072 ≤ 2 ^ 16)) :=
  ext2_maps_block_iff 0 131072 5 (by norm_num) (by norm_num) (by norm_num)

/-- With blocks of 1 KiB on a disk of 128 MiB, the indirect block 65536 is taken for a hole: the driver
uses block 0 for logical block 12, where the disk designates block 2. -/
theorem not_maps_indirect_65536 :
    (Ext2.serving 0 (chainDisk 1024 65536 [12, 0])).Serves (chainDisk 1024 65536 [12, 0]) ∧
      Consistent (chainDisk 1024 65536 [12, 0]) 1024 131072 (chainInode 65536 [12, 0] 12289) ∧
      ¬ (Ext2.serving 0 (chainDisk 1024 65536 [12, 0])).Maps (chainDisk 1024 65536 [12, 0])
        (chainInode 65536 [12, 0] 12289) 12288 := by
  refine ⟨Ext2.serves_serving _ _, ?_, fun h => ?_⟩
  · have hpath : pointerPath 256 12 = [12, 0] := by decide
    rw [← hpath]
    exact consistent_chain (by norm_num) (by norm_num) (by norm_num)
  · have huse := Ext2.uses_firstByte (Ext2.serving 0 (chainDisk 1024 65536 [12, 0])) 12
      (chainInode 65536 [12, 0] 12289) (by decide) (by decide) (by decide) rfl
    have hmem : (⟨12288, 1, 0⟩ : Ext2.Use) ∈
        ((Ext2.serving 0 (chainDisk 1024 65536 [12, 0])).ext2ReadInode
          (chainInode 65536 [12, 0] 12289) 12288 1).2.uses := by
      have hzero : (Ext2.serving 0 (chainDisk 1024 65536 [12, 0])).fileBlockToFsBlock
          (chainInode 65536 [12, 0] 12289) (toUint 12) = 0 := by decide
      rw [show 12288 = 12 * (Ext2.serving 0 (chainDisk 1024 65536 [12, 0])).blockSize by decide, huse,
        hzero]
      exact List.mem_cons_self
    exact absurd (h 12288 1 _ hmem le_rfl (by decide)) (by decide)

end I80k.Kernel

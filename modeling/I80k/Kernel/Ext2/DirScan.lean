import I80k.Kernel.Ext2.BlockWidth
import I80k.Kernel.Ext2.Tree
import I80k.Lib.Loop

/-!
# The scan of a directory

`ext2_dir_lookup` follows the lengths of the records through each block that it reads, in 16-bit
arithmetic. This module takes the function turn by turn, over any contents of the buffer.

The records may lead out of the block. The loop only tests that a record starts in the block: a header can
start in its last four bytes, and a name that is compared can go on behind the block.

## Main definitions

* `Ext2.scanTurn`: a turn of the loop over the records of a block
* `Ext2.DirPoint`, `Ext2.dirTurn`: the function, one turn of its loops at a time
* `Ext2.Follows`, `Ext2.OnChain`, `Ext2.Circular`, `Ext2.HasName`: the records of a block, as the loop follows
  them
* `Ext2.GetsTo`: the blocks that a lookup gets to
* `Ext2.pointReads`: the bytes of the buffer that a turn reads

## Main results

* `Ext2.ext2DirLookup_eq_some_iff`: the turns have the result of `ext2DirLookup`
* `Ext2.visits_record_iff`: the records that a lookup gets to
* `ext2_dir_lookup_inside_iff`: a lookup reads inside of the block if and only if the records it gets to
  are inside
-/

namespace I80k.Kernel

open Relation

namespace Ext2

/-! ## The records of a block -/

section Records

/-- The position after the record at `pos`. -/
def nextPos (buf : List UInt8) (pos : ℕ) : ℕ := toUint (pos + roundup4 (recLen buf pos))

variable (bs : ℕ) (buf : List UInt8) (name : List Char8)

/-- The loop goes on from the record at `pos` to the one at `pos'`. -/
def Follows (pos pos' : ℕ) : Prop :=
  pos < bs ∧ recLen buf pos ≠ 0 ∧ ¬ NameMatches buf pos name ∧ pos' = nextPos buf pos

/-- The records lead from the start of the block to `pos`. -/
def OnChain (pos : ℕ) : Prop := ReflTransGen (Follows bs buf name) 0 pos

/-- The records lead back to a record that they have left. -/
def Circular : Prop := ∃ pos, OnChain bs buf name pos ∧ TransGen (Follows bs buf name) pos pos

/-- The records lead to one that has the name. -/
def HasName : Prop :=
  ∃ pos, OnChain bs buf name pos ∧ pos < bs ∧ recLen buf pos ≠ 0 ∧ NameMatches buf pos name

end Records

/-! ## The function, turn by turn -/

variable (fs : Ext2)

/-- A turn of the loop over the records of a block: the next position, or the inode that was found. -/
def scanTurn (buf : List UInt8) (name : List Char8) (pos : ℕ) : ℕ ⊕ Option ℕ :=
  if fs.blockSize ≤ pos then .inr none
  else if recLen buf pos = 0 then .inr none
  else if NameMatches buf pos name then .inr (some (le32 buf pos))
  else .inl (nextPos buf pos)

/-- A place in `ext2_dir_lookup`. -/
inductive DirPoint
  | start
  /-- The loop over the blocks. -/
  | block (fileBlocknum : ℕ) (buf : List UInt8)
  /-- The loop over the records of a block. -/
  | record (fileBlocknum : ℕ) (buf : List UInt8) (pos : ℕ)
  deriving DecidableEq

variable (dir : Inode) (name : List Char8)

/-- The call of `ext2_read_inode` for a block. -/
def readDirBlock (fileBlocknum : ℕ) : Int16 × Transfer :=
  fs.ext2ReadInode dir (toUint32 (fileBlocknum * fs.blockSize)) (toUint fs.blockSize)

/-- The buffer after this call. -/
def loadDirBlock (fileBlocknum : ℕ) (buf : List UInt8) : List UInt8 :=
  let bytes := (fs.readDirBlock dir fileBlocknum).2.bytes
  bytes ++ buf.drop bytes.length

/-- A turn of `ext2_dir_lookup`. -/
def dirTurn : DirPoint → DirPoint ⊕ (Int16 × Option ℕ)
  | .start => if ¬ dir.IsDir then .inr (errNotDir, none) else .inl (.block 0 fs.fresh)
  | .block fileBlocknum buf =>
    let err := (fs.readDirBlock dir fileBlocknum).1
    if err ≤ 0 then .inr (err, none)
    else .inl (.record fileBlocknum (fs.loadDirBlock dir fileBlocknum buf) 0)
  | .record fileBlocknum buf pos =>
    match fs.scanTurn buf name pos with
    | .inl pos => .inl (.record fileBlocknum buf pos)
    | .inr (some inum) => .inr (1, some inum)
    | .inr none => if 1024 < fileBlocknum + 1 then .inr (-1, none) else .inl (.block (fileBlocknum + 1) buf)

/-- The buffer with block `fileBlocknum`, after those before it. -/
def dirBuf : ℕ → List UInt8
  | 0 => fs.loadDirBlock dir 0 fs.fresh
  | fileBlocknum + 1 => fs.loadDirBlock dir (fileBlocknum + 1) (dirBuf fileBlocknum)

/-- The lookup gets to block `k`: the blocks up to it are read, and the scan of those before it ends without
the name. -/
def GetsTo (k : ℕ) : Prop :=
  (∀ j ≤ k, 0 < (fs.readDirBlock dir j).1) ∧
    ∀ j < k, ¬ Circular fs.blockSize (fs.dirBuf dir j) name ∧ ¬ HasName fs.blockSize (fs.dirBuf dir j) name

variable {fs dir name} {buf : List UInt8}

/-! ## The scan of one block -/

theorem scanTurn_eq_inl_iff {pos pos' : ℕ} :
    fs.scanTurn buf name pos = .inl pos' ↔ Follows fs.blockSize buf name pos pos' := by
  rw [scanTurn, Follows]
  split_ifs with hpos hrec hname
  · simp [hpos]
  · simp [hrec]
  · simp [hname]
  · simp [not_le.mp hpos, hrec, hname, eq_comm]

theorem next_scanTurn : Loop.Next (fs.scanTurn buf name) = Follows fs.blockSize buf name := by
  funext pos pos'
  exact propext scanTurn_eq_inl_iff

theorem visits_scanTurn {pos : ℕ} :
    Loop.Visits (fs.scanTurn buf name) 0 pos ↔ OnChain fs.blockSize buf name pos := by
  rw [Loop.Visits, next_scanTurn, OnChain]

theorem comesBack_scanTurn :
    Loop.ComesBack (fs.scanTurn buf name) 0 ↔ Circular fs.blockSize buf name := by
  simp only [Loop.ComesBack, visits_scanTurn, next_scanTurn, Circular]

/-- The position is a multiple of 4, and has 16 bits. -/
theorem OnChain.pos {bs pos : ℕ} (h : OnChain bs buf name pos) : pos % 4 = 0 ∧ pos < 2 ^ 16 := by
  induction h with
  | refl => simp
  | tail _ hnext _ =>
    obtain ⟨-, -, -, rfl⟩ := hnext
    simp only [nextPos, roundup4, toUint]
    omega

theorem finite_visits_scanTurn : {pos | Loop.Visits (fs.scanTurn buf name) 0 pos}.Finite :=
  (Set.finite_lt_nat (2 ^ 16)).subset fun _ h => (visits_scanTurn.mp h).pos.2

theorem exists_scan_returns_iff :
    (∃ found, Loop.Returns (fs.scanTurn buf name) 0 found) ↔ ¬ Circular fs.blockSize buf name := by
  rw [Loop.exists_returns_iff finite_visits_scanTurn, comesBack_scanTurn]

theorem scan_eq_within (fuel : ℕ) : ∀ pos,
    fs.scan buf name fuel pos = Loop.within (fs.scanTurn buf name) fuel pos := by
  induction fuel with
  | zero => exact fun _ => rfl
  | succ fuel ih =>
    intro pos
    rw [scan, Loop.within, scanTurn, recLen]
    split_ifs
    · rfl
    · rfl
    · rfl
    · exact ih _

/-- The turns of `scan` are enough for every scan that ends. -/
theorem scan_eq_some_iff {found : Option ℕ} :
    fs.scan buf name (2 ^ 16 + 1) 0 = some found ↔ Loop.Returns (fs.scanTurn buf name) 0 found := by
  rw [scan_eq_within]
  refine Loop.within_eq_some_iff (F := Finset.range (2 ^ 16)) (fun pos h => ?_) ?_
  · exact Finset.mem_range.mpr (visits_scanTurn.mp h).pos.2
  · rw [Finset.card_range]
    exact Nat.le_succ _

/-- The scan ends without the name, if the records are not circular and none of them has it. -/
theorem scan_returns_none_iff :
    Loop.Returns (fs.scanTurn buf name) 0 none ↔
      ¬ Circular fs.blockSize buf name ∧ ¬ HasName fs.blockSize buf name := by
  constructor
  · intro h
    refine ⟨exists_scan_returns_iff.mp ⟨_, h⟩, ?_⟩
    rintro ⟨pos, hchain, hpos, hrec, hname⟩
    have hturn : fs.scanTurn buf name pos = .inr (some (le32 buf pos)) := by
      rw [scanTurn, if_neg (not_le.mpr hpos), if_neg hrec, if_pos hname]
    have hreturns := (Loop.returns_iff_of_visits (visits_scanTurn.mpr hchain)).mp h
    exact absurd ((Loop.returns_of_inr hturn).mp hreturns) (by simp)
  · rintro ⟨hcirc, hname⟩
    obtain ⟨found, pos, hvisits, hturn⟩ := exists_scan_returns_iff.mpr hcirc
    refine ⟨pos, hvisits, ?_⟩
    rw [scanTurn] at hturn ⊢
    split_ifs at hturn ⊢ with hpos hrec hmatch
    · rfl
    · rfl
    · exact absurd ⟨pos, visits_scanTurn.mp hvisits, not_le.mp hpos, hrec, hmatch⟩ hname

/-! ## The lookup -/

/-- What the lookup does after the scan of a block. -/
def afterScan (k : ℕ) (buf : List UInt8) : Option ℕ → DirPoint ⊕ (Int16 × Option ℕ)
  | some inum => .inr (1, some inum)
  | none => if 1024 < k + 1 then .inr (-1, none) else .inl (.block (k + 1) buf)

/-- The result of the lookup, if it goes on after the scan of a block. -/
def ReturnsAfter (fs : Ext2) (dir : Inode) (name : List Char8) (k : ℕ) (buf : List UInt8) (found : Option ℕ)
    (r : Int16 × Option ℕ) : Prop :=
  afterScan k buf found = .inr r ∨
    ∃ p, afterScan k buf found = .inl p ∧ Loop.Returns (fs.dirTurn dir name) p r

theorem dirTurn_record_inl {k pos pos' : ℕ} (h : fs.scanTurn buf name pos = .inl pos') :
    fs.dirTurn dir name (.record k buf pos) = .inl (.record k buf pos') := by
  simp only [dirTurn, h]

theorem dirTurn_record_inr {k pos : ℕ} {found : Option ℕ} (h : fs.scanTurn buf name pos = .inr found) :
    fs.dirTurn dir name (.record k buf pos) = afterScan k buf found := by
  cases found <;> simp only [dirTurn, h, afterScan]

theorem next_record {k : ℕ} : Loop.Next (fs.scanTurn buf name) ≤
    Function.onFun (Loop.Next (fs.dirTurn dir name)) (DirPoint.record k buf) :=
  fun _ _ => dirTurn_record_inl

theorem visits_record {k pos pos' : ℕ} (h : Loop.Visits (fs.scanTurn buf name) pos pos') :
    Loop.Visits (fs.dirTurn dir name) (.record k buf pos) (.record k buf pos') :=
  ReflTransGen.lift _ next_record _ _ h

theorem comesBack_record {k : ℕ} (h : Circular fs.blockSize buf name) :
    Loop.ComesBack (fs.dirTurn dir name) (.record k buf 0) := by
  obtain ⟨pos, hvisits, hback⟩ := comesBack_scanTurn.mpr h
  exact ⟨_, visits_record hvisits, TransGen.lift _ next_record _ _ hback⟩

/-- **The scan of a block** inside of the lookup. -/
theorem returns_record_iff {k : ℕ} {r : Int16 × Option ℕ} :
    Loop.Returns (fs.dirTurn dir name) (.record k buf 0) r ↔
      ∃ found, Loop.Returns (fs.scanTurn buf name) 0 found ∧ ReturnsAfter fs dir name k buf found r := by
  constructor
  · intro h
    have hcirc : ¬ Circular fs.blockSize buf name := fun hcirc => h.not_comesBack (comesBack_record hcirc)
    obtain ⟨found, pos, hvisits, hturn⟩ := exists_scan_returns_iff.mpr hcirc
    refine ⟨found, ⟨pos, hvisits, hturn⟩, ?_⟩
    have hr := (Loop.returns_iff_of_visits (visits_record hvisits)).mp h
    have hafter := @dirTurn_record_inr fs dir name buf k pos found hturn
    cases hcase : afterScan k buf found with
    | inl p => exact Or.inr ⟨p, hcase, (Loop.returns_of_inl (hafter.trans hcase)).mp hr⟩
    | inr r' =>
      obtain rfl := (Loop.returns_of_inr (hafter.trans hcase)).mp hr
      exact Or.inl hcase
  · rintro ⟨found, ⟨pos, hvisits, hturn⟩, hcase⟩
    have hafter := @dirTurn_record_inr fs dir name buf k pos found hturn
    refine (Loop.returns_iff_of_visits (visits_record hvisits)).mpr ?_
    rcases hcase with hr | ⟨p, hp, hr⟩
    · exact (Loop.returns_of_inr (hafter.trans hr)).mpr rfl
    · exact (Loop.returns_of_inl (hafter.trans hp)).mpr hr

theorem dirTurn_block {k : ℕ} (h : 0 < (fs.readDirBlock dir k).1) :
    fs.dirTurn dir name (.block k buf) = .inl (.record k (fs.loadDirBlock dir k buf) 0) := by
  rw [dirTurn]
  exact if_neg (Int16.not_le.mpr h)

theorem dirBlocks_succ (fuel k : ℕ) (buf : List UInt8) :
    fs.dirBlocks dir name (fuel + 1) k buf =
      if (fs.readDirBlock dir k).1 ≤ 0 then some ((fs.readDirBlock dir k).1, none) else
        match fs.scan (fs.loadDirBlock dir k buf) name (2 ^ 16 + 1) 0 with
        | none => none
        | some (some inum) => some (1, some inum)
        | some none => fs.dirBlocks dir name fuel (k + 1) (fs.loadDirBlock dir k buf) :=
  rfl

/-- One block, if the lookup goes on after it as `dirBlocks` does. -/
theorem dirBlocks_succ_eq_some_iff {fuel k : ℕ} {r : Int16 × Option ℕ}
    (hrest : fs.dirBlocks dir name fuel (k + 1) (fs.loadDirBlock dir k buf) = some r ↔
      ReturnsAfter fs dir name k (fs.loadDirBlock dir k buf) none r) :
    fs.dirBlocks dir name (fuel + 1) k buf = some r ↔
      Loop.Returns (fs.dirTurn dir name) (.block k buf) r := by
  rw [dirBlocks_succ]
  split_ifs with herr
  · have hturn : fs.dirTurn dir name (.block k buf) = .inr ((fs.readDirBlock dir k).1, none) := by
      rw [dirTurn]
      exact if_pos herr
    rw [Loop.returns_of_inr hturn, Option.some_inj]
  · rw [Loop.returns_of_inl (dirTurn_block (Int16.not_le.mp herr)), returns_record_iff]
    simp only [← scan_eq_some_iff]
    cases fs.scan (fs.loadDirBlock dir k buf) name (2 ^ 16 + 1) 0 with
    | none => simp
    | some found =>
      cases found with
      | none => simpa using hrest
      | some inum => simp [ReturnsAfter, afterScan]

theorem dirBlocks_eq_some_iff {r : Int16 × Option ℕ} (fuel : ℕ) : ∀ {k : ℕ} {buf : List UInt8},
    k + fuel = 1024 → (fs.dirBlocks dir name (fuel + 1) k buf = some r ↔
      Loop.Returns (fs.dirTurn dir name) (.block k buf) r) := by
  induction fuel with
  | zero =>
    intro k buf hk
    refine dirBlocks_succ_eq_some_iff ?_
    simp [ReturnsAfter, afterScan, dirBlocks, show 1024 < k + 1 by omega]
  | succ fuel ih =>
    intro k buf hk
    refine dirBlocks_succ_eq_some_iff ?_
    rw [ih (by omega)]
    simp [ReturnsAfter, afterScan, show ¬ 1024 < k + 1 by omega]

/-- **The turns of a lookup** have the result of `ext2DirLookup`. -/
theorem ext2DirLookup_eq_some_iff {r : Int16 × Option ℕ} :
    fs.ext2DirLookup dir name = some r ↔ Loop.Returns (fs.dirTurn dir name) .start r := by
  rw [ext2DirLookup]
  split_ifs with hdir
  · rw [Loop.returns_of_inl (t := .block 0 fs.fresh) (by simp [dirTurn, hdir])]
    exact dirBlocks_eq_some_iff 1024 rfl
  · have hturn : fs.dirTurn dir name .start = .inr (errNotDir, none) := by simp [dirTurn, hdir]
    rw [Loop.returns_of_inr hturn, Option.some_inj]

/-! ## The records that a lookup gets to -/

/-- The buffer before block `k` is read. -/
def bufBefore (fs : Ext2) (dir : Inode) : ℕ → List UInt8
  | 0 => fs.fresh
  | k + 1 => fs.dirBuf dir k

theorem dirBuf_eq (k : ℕ) : fs.dirBuf dir k = fs.loadDirBlock dir k (fs.bufBefore dir k) := by
  cases k <;> rfl

/-- What a lookup has done when it gets to a point. -/
def Reached (fs : Ext2) (dir : Inode) (name : List Char8) : DirPoint → Prop
  | .start => True
  | .block k buf =>
    dir.IsDir ∧ k ≤ 1024 ∧ buf = fs.bufBefore dir k ∧ ∀ j < k, 0 < (fs.readDirBlock dir j).1 ∧
      ¬ Circular fs.blockSize (fs.dirBuf dir j) name ∧ ¬ HasName fs.blockSize (fs.dirBuf dir j) name
  | .record k buf pos =>
    dir.IsDir ∧ k ≤ 1024 ∧ buf = fs.dirBuf dir k ∧ fs.GetsTo dir name k ∧ OnChain fs.blockSize buf name pos

theorem Reached.step {p q : DirPoint} (h : Reached fs dir name p) (hpq : fs.dirTurn dir name p = .inl q) :
    Reached fs dir name q := by
  cases p with
  | start =>
    simp only [dirTurn] at hpq
    split_ifs at hpq with hdir
    obtain rfl := Sum.inl.inj hpq
    exact ⟨hdir, by omega, rfl, fun j hj => absurd hj (by omega)⟩
  | block k buf =>
    obtain ⟨hdir, hk, rfl, hbefore⟩ := h
    simp only [dirTurn] at hpq
    split_ifs at hpq with herr
    obtain rfl := Sum.inl.inj hpq
    refine ⟨hdir, hk, (dirBuf_eq k).symm, ⟨fun j hj => ?_, fun j hj => (hbefore j hj).2⟩, .refl⟩
    rcases hj.lt_or_eq with hlt | rfl
    · exact (hbefore j hlt).1
    · exact Int16.not_le.mp herr
  | record k buf pos =>
    obtain ⟨hdir, hk, rfl, hgets, hchain⟩ := h
    cases hturn : fs.scanTurn (fs.dirBuf dir k) name pos with
    | inl pos' =>
      obtain rfl := Sum.inl.inj ((dirTurn_record_inl hturn).symm.trans hpq)
      exact ⟨hdir, hk, rfl, hgets, hchain.tail (scanTurn_eq_inl_iff.mp hturn)⟩
    | inr found =>
      -- the scan of this block has ended
      rw [dirTurn_record_inr hturn] at hpq
      cases found with
      | some inum => exact absurd hpq (by simp [afterScan])
      | none =>
        simp only [afterScan] at hpq
        split_ifs at hpq with hlast
        obtain rfl := Sum.inl.inj hpq
        refine ⟨hdir, by omega, rfl, fun j hj => ?_⟩
        refine ⟨hgets.1 j (by omega), ?_⟩
        rcases (Nat.lt_succ_iff.mp hj).lt_or_eq with hlt | rfl
        · exact hgets.2 j hlt
        · exact scan_returns_none_iff.mp ⟨pos, visits_scanTurn.mpr hchain, hturn⟩

theorem reached_of_visits {p : DirPoint} (h : Loop.Visits (fs.dirTurn dir name) .start p) :
    Reached fs dir name p := by
  induction h with
  | refl => trivial
  | tail _ hpq ih => exact ih.step hpq

/-- A lookup gets to the blocks that it should get to. -/
theorem GetsTo.visits (hdir : dir.IsDir) (k : ℕ) (hk : k ≤ 1024) (h : fs.GetsTo dir name k) :
    Loop.Visits (fs.dirTurn dir name) .start (.record k (fs.dirBuf dir k) 0) := by
  induction k with
  | zero =>
    have hstart : fs.dirTurn dir name .start = .inl (.block 0 fs.fresh) := by simp [dirTurn, hdir]
    have hread : fs.dirTurn dir name (.block 0 fs.fresh) = .inl (.record 0 (fs.dirBuf dir 0) 0) :=
      dirTurn_block (h.1 0 le_rfl)
    exact ReflTransGen.head hstart (ReflTransGen.single hread)
  | succ k ih =>
    have hgets : fs.GetsTo dir name k :=
      ⟨fun j hj => h.1 j (by omega), fun j hj => h.2 j (by omega)⟩
    obtain ⟨pos, hvisits, hturn⟩ := (@scan_returns_none_iff fs name (fs.dirBuf dir k)).mpr (h.2 k (by omega))
    have hnext : fs.dirTurn dir name (.record k (fs.dirBuf dir k) pos) =
        .inl (.block (k + 1) (fs.dirBuf dir k)) := by
      rw [dirTurn_record_inr hturn, afterScan, if_neg (by omega)]
    have hread : fs.dirTurn dir name (.block (k + 1) (fs.dirBuf dir k)) =
        .inl (.record (k + 1) (fs.dirBuf dir (k + 1)) 0) :=
      dirTurn_block (h.1 (k + 1) le_rfl)
    exact (((ih (by omega) hgets).trans (visits_record hvisits)).tail hnext).tail hread

/-- **The records that a lookup gets to**. -/
theorem visits_record_iff {k pos : ℕ} :
    Loop.Visits (fs.dirTurn dir name) .start (.record k buf pos) ↔
      dir.IsDir ∧ k ≤ 1024 ∧ buf = fs.dirBuf dir k ∧ fs.GetsTo dir name k ∧
        OnChain fs.blockSize buf name pos := by
  constructor
  · exact reached_of_visits
  · rintro ⟨hdir, hk, rfl, hgets, hchain⟩
    exact (hgets.visits hdir k hk).trans (visits_record (visits_scanTurn.mpr hchain))

/-! ## The bytes that a lookup reads -/

/-- The bytes that `memcmp` reads of the operand at index `i` of the buffer: it compares two bytes at a
time up to the first difference, and then the last byte of an odd length. -/
def memcmpReads (buf : List UInt8) : List Char8 → ℕ → List ℕ
  | c₀ :: c₁ :: name, i =>
    i :: (i + 1) ::
      if buf.getD i 0 = c₀ ∧ buf.getD (i + 1) 0 = c₁ then memcmpReads buf name (i + 2) else []
  | [_], i => [i]
  | [], _ => []

/-- The bytes of the buffer that a turn of the loop over the records reads: the length of the record, the
length of its name, the name if this is the length of the one searched, and the inode if it matches. -/
def scanReads (fs : Ext2) (buf : List UInt8) (name : List Char8) (pos : ℕ) : List ℕ :=
  if fs.blockSize ≤ pos then []
  else [pos + 4, pos + 5] ++
    if recLen buf pos = 0 then []
    else [pos + 6] ++
      if nameLen buf pos ≠ name.length then []
      else memcmpReads buf name (pos + 8) ++
        if NameMatches buf pos name then [pos, pos + 1, pos + 2, pos + 3] else []

/-- The bytes of the buffer that a turn of the lookup reads. -/
def pointReads (fs : Ext2) (name : List Char8) : DirPoint → List ℕ
  | .start => []
  | .block _ _ => []
  | .record _ buf pos => fs.scanReads buf name pos

/-- The record at `pos` is inside of the block: its header does not start in the last four bytes, and if its
name has the length of the one searched, it ends in the block or differs there. -/
def RecordInside (bs : ℕ) (buf : List UInt8) (name : List Char8) (pos : ℕ) : Prop :=
  pos + 4 ≠ bs ∧
    (recLen buf pos ≠ 0 → nameLen buf pos = name.length →
      pos + 8 + name.length ≤ bs ∨
        ∃ i < name.length, pos + 8 + i < bs ∧ buf.getD (pos + 8 + i) 0 ≠ name.getD i 0)

theorem blockSize_mod_four (fs : Ext2) : fs.blockSize % 4 = 0 := by
  rw [blockSize, toUint32]
  omega

/-- `memcmp` reads inside of the block if the name ends or differs there. -/
theorem memcmpReads_lt_iff {bs : ℕ} (hbs : bs % 2 = 0) (buf : List UInt8) (name : List Char8) (i : ℕ)
    (hi : i % 2 = 0) (hle : i ≤ bs) :
    (∀ j ∈ memcmpReads buf name i, j < bs) ↔
      i + name.length ≤ bs ∨ ∃ j < name.length, i + j < bs ∧ buf.getD (i + j) 0 ≠ name.getD j 0 := by
  induction name, i using memcmpReads.induct with
  | case1 c₀ c₁ name i ih =>
    rw [memcmpReads]
    by_cases hlt : i < bs
    · split_ifs with heq
      · -- the two bytes agree, so the difference is among those after them
        have hshift : (∃ j < (c₀ :: c₁ :: name).length, i + j < bs ∧
              buf.getD (i + j) 0 ≠ (c₀ :: c₁ :: name).getD j 0) ↔
            ∃ j < name.length, i + 2 + j < bs ∧ buf.getD (i + 2 + j) 0 ≠ name.getD j 0 := by
          constructor
          · rintro ⟨j, hj, hjlt, hne⟩
            match j, hj, hjlt, hne with
            | 0, _, _, hne => exact absurd heq.1 hne
            | 1, _, _, hne => exact absurd heq.2 hne
            | j + 2, hj, hjlt, hne =>
              rw [show i + (j + 2) = i + 2 + j by omega] at hjlt hne
              exact ⟨j, by simpa using hj, hjlt, hne⟩
          · rintro ⟨j, hj, hjlt, hne⟩
            rw [show i + 2 + j = i + (j + 2) by omega] at hjlt hne
            exact ⟨j + 2, by simpa using hj, hjlt, hne⟩
        rw [hshift, List.forall_mem_cons, List.forall_mem_cons, ih (by omega) (by omega),
          List.length_cons, List.length_cons, show i + (name.length + 1 + 1) = i + 2 + name.length by omega]
        exact ⟨fun h => h.2.2, fun h => ⟨hlt, by omega, h⟩⟩
      · -- the difference is one of the two bytes
        refine iff_of_true ?_ (Or.inr ?_)
        · simp only [List.forall_mem_cons, List.not_mem_nil]
          exact ⟨hlt, by omega, fun _ h => absurd h id⟩
        · rcases not_and_or.mp heq with hne | hne
          · exact ⟨0, by simp, hlt, hne⟩
          · exact ⟨1, by simp, by omega, hne⟩
    · refine iff_of_false (fun h => hlt (h i List.mem_cons_self)) ?_
      rintro (h | ⟨j, -, hj, -⟩)
      · simp only [List.length_cons] at h
        omega
      · omega
  | case2 i c =>
    simp only [memcmpReads, List.mem_singleton, forall_eq, List.length_singleton]
    constructor
    · exact fun h => Or.inl h
    · rintro (h | ⟨j, -, hj, -⟩)
      · exact h
      · omega
  | case3 i => simp [memcmpReads, hle]

variable {fs : Ext2} {buf : List UInt8} {name : List Char8}

/-- **One turn** reads inside of the block if and only if its record is inside. -/
theorem scanReads_lt_iff {pos : ℕ} (hpos : pos < fs.blockSize) (halign : pos % 4 = 0) :
    (∀ i ∈ fs.scanReads buf name pos, i < fs.blockSize) ↔ RecordInside fs.blockSize buf name pos := by
  have hbs := fs.blockSize_mod_four
  rw [scanReads, if_neg (not_le.mpr hpos), RecordInside]
  -- At 4 bytes before the end `rec_len` is behind it; before that there is room for the header.
  by_cases hend : pos + 4 = fs.blockSize
  · refine iff_of_false (fun h => ?_) fun h => h.1 hend
    have := h (pos + 4) (by simp)
    omega
  · have hheader : pos + 8 ≤ fs.blockSize := by omega
    have hcompare := memcmpReads_lt_iff (by omega) buf name (pos + 8) (by omega) hheader
    by_cases hrec : recLen buf pos = 0
    · simp [hrec, hend]
      omega
    · by_cases hlen : nameLen buf pos = name.length
      · -- The inode number is read last, from the header.
        have hinode : ∀ i ∈ (if NameMatches buf pos name then [pos, pos + 1, pos + 2, pos + 3] else []),
            i < fs.blockSize := by
          intro i hi
          split_ifs at hi
          · simp only [List.mem_cons, List.not_mem_nil, or_false] at hi
            omega
          · exact absurd hi List.not_mem_nil
        rw [if_neg hrec, if_neg (not_not.mpr hlen)]
        simp only [List.forall_mem_append, hcompare, List.forall_mem_cons]
        constructor
        · rintro ⟨-, -, hname, -⟩
          exact ⟨hend, fun _ _ => hname⟩
        · rintro ⟨-, hname⟩
          refine ⟨⟨by omega, by omega, ?_⟩, ⟨by omega, ?_⟩, hname hrec hlen, hinode⟩
          · exact fun _ h => absurd h List.not_mem_nil
          · exact fun _ h => absurd h List.not_mem_nil
      · simp [hrec, hlen, hend]
        omega

end Ext2

/-- **A lookup in a directory reads inside of its buffer** if and only if the records that it gets to are
inside of their blocks. -/
theorem ext2_dir_lookup_inside_iff (fs : Ext2) (dir : Inode) (name : List Char8) :
    (∀ p, Loop.Visits (fs.dirTurn dir name) .start p → ∀ i ∈ fs.pointReads name p, i < fs.blockSize) ↔
      (dir.IsDir → ∀ k ≤ 1024, fs.GetsTo dir name k → ∀ pos < fs.blockSize,
        Ext2.OnChain fs.blockSize (fs.dirBuf dir k) name pos →
          Ext2.RecordInside fs.blockSize (fs.dirBuf dir k) name pos) := by
  constructor
  · intro h hdir k hk hgets pos hpos hchain
    rw [← Ext2.scanReads_lt_iff hpos hchain.pos.1]
    exact h (.record k (fs.dirBuf dir k) pos) (Ext2.visits_record_iff.mpr ⟨hdir, hk, rfl, hgets, hchain⟩)
  · intro h p hp i hi
    cases p with
    | start => exact absurd hi List.not_mem_nil
    | block k buf => exact absurd hi List.not_mem_nil
    | record k buf pos =>
      obtain ⟨hdir, hk, rfl, hgets, hchain⟩ := Ext2.visits_record_iff.mp hp
      by_cases hpos : pos < fs.blockSize
      · exact (Ext2.scanReads_lt_iff hpos hchain.pos.1).mpr (h hdir k hk hgets pos hpos hchain) i hi
      · rw [Ext2.pointReads, Ext2.scanReads, if_pos (not_lt.mp hpos)] at hi
        exact absurd hi List.not_mem_nil

/-- A disk with one record in the block 20 of 1024 bytes, of the length 1020. -/
def shortDisk (a : ℕ) : UInt8 := if a = 20484 then 0xFC else if a = 20485 then 3 else 0

/-- The last four bytes of a block are taken for a record, and its length is read behind the block. -/
theorem not_inside_short :
    ¬ ∀ p, Loop.Visits ((Ext2.serving 0 shortDisk).dirTurn ⟨0x41ED, 1024, [20]⟩ [97]) .start p →
      ∀ i ∈ (Ext2.serving 0 shortDisk).pointReads [97] p, i < (Ext2.serving 0 shortDisk).blockSize := by
  intro h
  have hgets : (Ext2.serving 0 shortDisk).GetsTo ⟨0x41ED, 1024, [20]⟩ [97] 0 := by
    refine ⟨fun j hj => ?_, fun j hj => absurd hj (by omega)⟩
    obtain rfl := Nat.le_zero.mp hj
    decide
  have hnext : Ext2.Follows (Ext2.serving 0 shortDisk).blockSize
      ((Ext2.serving 0 shortDisk).dirBuf ⟨0x41ED, 1024, [20]⟩ 0) [97] 0 1020 :=
    Ext2.scanTurn_eq_inl_iff.mp (by decide +kernel)
  have hread := h (.record 0 _ 1020)
    (Ext2.visits_record_iff.mpr ⟨by decide, by omega, rfl, hgets, .single hnext⟩) 1024 (by decide)
  exact absurd hread (by decide)

end I80k.Kernel

import I80k.Kernel.Ext2.DirScan

/-!
# Whether a lookup returns

The position of `ext2_dir_lookup` in a block moves on by the length of the record there, rounded up to a multiple
of 4. The rounding is done in a `uint16_t` and the sum in a `uint`, so both wrap around: the position moves on as
long as `pos + rec_len` is less than 65533, and a record for which it is not is overlong. A lookup that gets to no
overlong record returns. From an overlong record the position stays where it is, if its length is at least 65533,
or moves back, and the lookup does not return if the records lead to the overlong one again.

## Main definitions

* `Ext2.RecordAt`: the records of a block, one behind the other
* `Ext2.Overlong`: a record from which the position does not move on
* `Ext2.ComesTo`: the blocks that a lookup comes to, up to the first one with an overlong record
* `lensDisk`: a disk of records with given lengths

## Main results

* `Ext2.circular_iff`: records lead back to one of them through an overlong one
* `ext2_dir_lookup_returns_iff`: a lookup returns if it comes to no overlong record; which of the others do not
-/

namespace I80k.Kernel

open Relation

namespace Ext2

/-! ## Overlong records -/

section Records

variable (bs : ℕ) (buf : List UInt8) (name : List Char8)

/-- The loop goes on behind the record at `pos`: it starts in the block, has a length, and is not the one that is
searched. -/
def PassedOver (pos : ℕ) : Prop := pos < bs ∧ recLen buf pos ≠ 0 ∧ ¬ NameMatches buf pos name

/-- The records of a block: behind each one that is passed over there is another one, up to an overlong one. -/
inductive RecordAt : ℕ → Prop
  | first : RecordAt 0
  | next {pos : ℕ} (h : RecordAt pos) (hpass : PassedOver bs buf name pos) (hshort : pos + recLen buf pos < 65533) :
    RecordAt (pos + (recLen buf pos + 3) / 4 * 4)

/-- The record at `pos` is passed over, and the position behind it does not fit. -/
def Overlong (pos : ℕ) : Prop := PassedOver bs buf name pos ∧ 65533 ≤ pos + recLen buf pos

end Records

section Lookup

variable (fs : Ext2) (dir : Inode) (name : List Char8)

/-- The lookup comes to block `k`: the blocks up to it are read, and in those before it no record is overlong, or
has the name. -/
def ComesTo (k : ℕ) : Prop :=
  (∀ j ≤ k, 0 < (fs.readDirBlock dir j).1) ∧
    ∀ j < k, ∀ pos, RecordAt fs.blockSize (fs.dirBuf dir j) name pos →
      ¬ Overlong fs.blockSize (fs.dirBuf dir j) name pos ∧
        (pos < fs.blockSize → recLen (fs.dirBuf dir j) pos ≠ 0 → ¬ NameMatches (fs.dirBuf dir j) pos name)

/-- The lookup returns, after finitely many turns. -/
def LookupReturns : Prop := ∃ r, Loop.Returns (fs.dirTurn dir name) .start r

end Lookup

variable {fs : Ext2} {dir : Inode} {name : List Char8} {bs : ℕ} {buf : List UInt8}

theorem follows_iff {pos pos' : ℕ} :
    Follows bs buf name pos pos' ↔ PassedOver bs buf name pos ∧ pos' = nextPos buf pos := by
  rw [Follows, PassedOver, and_assoc, and_assoc]

/-- Where nothing wraps around, the next position is behind the record. -/
theorem nextPos_of_short {pos : ℕ} (h : pos + recLen buf pos < 65533) :
    nextPos buf pos = pos + (recLen buf pos + 3) / 4 * 4 := by
  simp only [nextPos, roundup4, toUint]
  omega

theorem RecordAt.onChain {pos : ℕ} (h : RecordAt bs buf name pos) : OnChain bs buf name pos := by
  induction h with
  | first => exact .refl
  | next _ hpass hshort ih => exact ih.tail (follows_iff.mpr ⟨hpass, (nextPos_of_short hshort).symm⟩)

/-- Without overlong records, the loop gets to the records that are there. -/
theorem recordAt_of_onChain (hnone : ∀ pos, RecordAt bs buf name pos → ¬ Overlong bs buf name pos) {pos : ℕ}
    (h : OnChain bs buf name pos) : RecordAt bs buf name pos := by
  induction h with
  | refl => exact .first
  | tail _ hnext ih =>
    obtain ⟨hpass, rfl⟩ := follows_iff.mp hnext
    have hshort := not_le.mp fun hlong => hnone _ ih ⟨hpass, hlong⟩
    rw [nextPos_of_short hshort]
    exact ih.next hpass hshort

/-- A record that is not overlong leads forward. -/
theorem Follows.lt {pos pos' : ℕ} (h : Follows bs buf name pos pos') (hnot : ¬ Overlong bs buf name pos) :
    pos < pos' := by
  obtain ⟨hpass, rfl⟩ := follows_iff.mp h
  have hrec := hpass.2.1
  rw [nextPos_of_short (not_le.mp fun hlong => hnot ⟨hpass, hlong⟩)]
  omega

/-- What follows a record that leads back to itself leads back to itself. -/
theorem Follows.back {pos pos' : ℕ} (h : Follows bs buf name pos pos')
    (hback : TransGen (Follows bs buf name) pos pos) : TransGen (Follows bs buf name) pos' pos' := by
  obtain ⟨next, hnext, hrest⟩ := TransGen.head'_iff.mp hback
  obtain rfl : next = pos' := (follows_iff.mp hnext).2.trans (follows_iff.mp h).2.symm
  exact TransGen.tail'_iff.mpr ⟨pos, hrest, h⟩

/-- **Records lead back** to one of them if and only if they lead back to an overlong one. -/
theorem circular_iff : Circular bs buf name ↔
    ∃ pos, OnChain bs buf name pos ∧ Overlong bs buf name pos ∧ TransGen (Follows bs buf name) pos pos := by
  refine ⟨fun hcirc => ?_, fun ⟨pos, hchain, _, hback⟩ => ⟨pos, hchain, hback⟩⟩
  by_contra hnone
  push Not at hnone
  obtain ⟨pos, hchain, hback⟩ := hcirc
  -- otherwise the records after `pos` are all behind it
  have hbehind : ∀ {pos'}, TransGen (Follows bs buf name) pos pos' →
      OnChain bs buf name pos' ∧ TransGen (Follows bs buf name) pos' pos' ∧ pos < pos' := by
    intro pos' h
    induction h with
    | single hnext =>
      exact ⟨hchain.tail hnext, hnext.back hback, hnext.lt fun hlong => hnone _ hchain hlong hback⟩
    | tail _ hnext ih =>
      obtain ⟨hchain', hback', hlt⟩ := ih
      exact ⟨hchain'.tail hnext, hnext.back hback',
        hlt.trans (hnext.lt fun hlong => hnone _ hchain' hlong hback')⟩
  exact lt_irrefl _ (hbehind hback).2.2

/-- A record of a length of at least 65533 leads to itself. -/
theorem Overlong.self {pos : ℕ} (h : Overlong bs buf name pos) (hchain : OnChain bs buf name pos)
    (hrec : 65533 ≤ recLen buf pos) (hword : recLen buf pos < 2 ^ 16) : Circular bs buf name := by
  refine ⟨pos, hchain, .single (follows_iff.mpr ⟨h.1, ?_⟩)⟩
  -- the rounding of such a length wraps around to 0
  have hpos := hchain.pos.2
  simp only [nextPos, roundup4, toUint]
  omega

theorem recLen_lt (buf : List UInt8) (pos : ℕ) : recLen buf pos < 2 ^ 16 := by
  have hlo := (buf.getD (pos + 4) 0).toNat_lt
  have hhi := (buf.getD (pos + 4 + 1) 0).toNat_lt
  rw [recLen, le16]
  omega

/-! ## The blocks of a lookup -/

/-- The blocks are the ones that the loop gets to, if no record is overlong in those before. -/
theorem ComesTo.getsTo {k : ℕ} (h : fs.ComesTo dir name k) : fs.GetsTo dir name k := by
  refine ⟨h.1, fun j hj => ⟨fun hcirc => ?_, ?_⟩⟩
  · obtain ⟨pos, hchain, hlong, -⟩ := circular_iff.mp hcirc
    exact (h.2 j hj pos (recordAt_of_onChain (fun pos hpos => (h.2 j hj pos hpos).1) hchain)).1 hlong
  · rintro ⟨pos, hchain, hlt, hrec, hname⟩
    have hpos := recordAt_of_onChain (fun pos hpos => (h.2 j hj pos hpos).1) hchain
    exact (h.2 j hj pos hpos).2 hlt hrec hname

theorem GetsTo.comesTo {k : ℕ} (h : fs.GetsTo dir name k)
    (hnone : ∀ j < k, fs.ComesTo dir name j → ∀ pos, RecordAt fs.blockSize (fs.dirBuf dir j) name pos →
      ¬ Overlong fs.blockSize (fs.dirBuf dir j) name pos) : fs.ComesTo dir name k := by
  induction k using Nat.strong_induction_on with
  | _ k ih =>
    refine ⟨h.1, fun j hj pos hpos => ⟨?_, fun hlt hrec hname => ?_⟩⟩
    -- the lookup comes to the block `j` before, where the records are not overlong
    · have hgets : fs.GetsTo dir name j := ⟨fun i hi => h.1 i (by omega), fun i hi => h.2 i (by omega)⟩
      exact hnone j hj (ih j hj hgets fun i hi => hnone i (by omega)) pos hpos
    · exact (h.2 j hj).2 ⟨pos, hpos.onChain, hlt, hrec, hname⟩

/-- A block that is not circular, if the lookup returns when it goes on after it. -/
theorem exists_returns_of_next {k : ℕ} (hreached : Reached fs dir name (.block k buf))
    (hcirc : fs.GetsTo dir name k → ¬ Circular fs.blockSize (fs.dirBuf dir k) name)
    (hnext : ∀ p, afterScan k (fs.loadDirBlock dir k buf) none = .inl p → Reached fs dir name p →
      ∃ r, Loop.Returns (fs.dirTurn dir name) p r) :
    ∃ r, Loop.Returns (fs.dirTurn dir name) (.block k buf) r := by
  by_cases herr : (fs.readDirBlock dir k).1 ≤ 0
  -- the end of the directory, or an error
  · exact ⟨_, (Loop.returns_of_inr (by rw [dirTurn]; exact if_pos herr)).mpr rfl⟩
  · have hturn := @dirTurn_block fs dir name buf k (Int16.not_le.mp herr)
    have hrecord := hreached.step hturn
    have hbuf := hrecord.2.2.1
    -- the scan of the block ends, since the lookup gets to the block and it is not circular
    obtain ⟨found, hfound⟩ := exists_scan_returns_iff.mpr (hcirc hrecord.2.2.2.1)
    rw [← hbuf] at hfound
    -- the point after the scan, if the lookup does not return there
    have hafter : ∀ p, afterScan k (fs.loadDirBlock dir k buf) found = .inl p → Reached fs dir name p := by
      intro p hp
      obtain ⟨pos, hvisits, hpos⟩ := hfound
      have hend : Reached fs dir name (.record k (fs.loadDirBlock dir k buf) pos) :=
        ⟨hrecord.1, hrecord.2.1, hbuf, hrecord.2.2.2.1, visits_scanTurn.mp hvisits⟩
      exact hend.step ((dirTurn_record_inr hpos).trans hp)
    simp only [Loop.returns_of_inl hturn, returns_record_iff]
    cases found with
    | some inum => exact ⟨_, some inum, hfound, Or.inl rfl⟩
    | none =>
      cases hcase : afterScan k (fs.loadDirBlock dir k buf) none with
      | inr r => exact ⟨r, none, hfound, Or.inl hcase⟩
      | inl p =>
        obtain ⟨r, hr⟩ := hnext p hcase (hafter p hcase)
        exact ⟨r, none, hfound, Or.inr ⟨p, hcase, hr⟩⟩

/-- From a block on, with `m` blocks to go, if no block is circular. -/
theorem exists_returns_block
    (h : ∀ k ≤ 1024, fs.GetsTo dir name k → ¬ Circular fs.blockSize (fs.dirBuf dir k) name) (m : ℕ) :
    ∀ {k : ℕ} {buf : List UInt8}, k + m = 1024 → Reached fs dir name (.block k buf) →
      ∃ r, Loop.Returns (fs.dirTurn dir name) (.block k buf) r := by
  induction m with
  | zero =>
    intro k buf hk hreached
    -- the last block: the lookup gives up after it
    refine exists_returns_of_next hreached (h k (by omega)) fun p hp _ => ?_
    rw [afterScan, if_pos (by omega)] at hp
    exact absurd hp (by simp)
  | succ m ih =>
    intro k buf hk hreached
    refine exists_returns_of_next hreached (h k (by omega)) fun p hp hreached' => ?_
    rw [afterScan, if_neg (by omega)] at hp
    obtain rfl := Sum.inl.inj hp
    exact ih (by omega) hreached'

/-- **A lookup returns** if and only if in no block it gets to the records lead back to one of them. -/
theorem lookupReturns_iff :
    fs.LookupReturns dir name ↔ (dir.IsDir → ∀ k ≤ 1024, fs.GetsTo dir name k →
      ¬ Circular fs.blockSize (fs.dirBuf dir k) name) := by
  constructor
  · rintro ⟨r, hr⟩ hdir k hk hgets hcirc
    -- the loop over the records comes back to a point that it was at
    have hrecord := (Loop.returns_iff_of_visits (hgets.visits hdir k hk)).mp hr
    exact hrecord.not_comesBack (comesBack_record hcirc)
  · intro h
    by_cases hdir : dir.IsDir
    · have hstart : fs.dirTurn dir name .start = .inl (.block 0 fs.fresh) := by simp [dirTurn, hdir]
      obtain ⟨r, hr⟩ := exists_returns_block (h hdir) 1024 (Nat.zero_add _)
        (reached_of_visits (.single hstart))
      exact ⟨r, (Loop.returns_of_inl hstart).mpr hr⟩
    · exact ⟨(errNotDir, none), (Loop.returns_of_inr (by simp [dirTurn, hdir])).mpr rfl⟩

/-- A lookup that comes to no overlong record returns. -/
theorem lookupReturns_of_short
    (h : dir.IsDir → ∀ k ≤ 1024, fs.ComesTo dir name k → ∀ pos, RecordAt fs.blockSize (fs.dirBuf dir k) name pos →
      ¬ Overlong fs.blockSize (fs.dirBuf dir k) name pos) : fs.LookupReturns dir name := by
  refine lookupReturns_iff.mpr fun hdir k hk hgets hcirc => ?_
  have hnone := h hdir
  have hcomes := hgets.comesTo fun j hj => hnone j (by omega)
  obtain ⟨pos, hchain, hlong, -⟩ := circular_iff.mp hcirc
  exact hnone k hk hcomes pos (recordAt_of_onChain (hnone k hk hcomes) hchain) hlong

/-! ## Directories with an overlong record -/

/-- A directory of one block, the block 20. -/
def blockDir (size : ℕ) : Inode := ⟨0x41ED, size, [20]⟩

theorem isDir_blockDir (size : ℕ) : (blockDir size).IsDir := by
  change 0x41ED &&& Inode.fmt = 0x4000
  decide

/-- The disk whose block 20 has records of these lengths, and without names. -/
def lensDisk (bs : ℕ) (lens : ℕ → ℕ) (a : ℕ) : UInt8 :=
  let i := a - 20 * bs
  if i % 4 = 0 then UInt8.ofNat (lens (i - 4))
  else if i % 4 = 1 then UInt8.ofNat (lens (i - 5) / 2 ^ 8)
  else 0

/-- The lengths for a record of length `r` at `pos`: the first record leads there, and so does the one at `next`. -/
def wrapLens (pos r next i : ℕ) : ℕ := if i = pos then r else if i = next then pos - next else if i = 0 then pos else 0

section Wrap

variable {log : ℕ} {disk : ℕ → UInt8} {lens : ℕ → ℕ}

/-- The block of such a directory is read. -/
theorem readDirBlock_serving (hlog : log ≤ 2) (disk : ℕ → UInt8) :
    0 < ((serving log disk).readDirBlock (blockDir (serving log disk).blockSize) 0).1 ∧
      (serving log disk).dirBuf (blockDir (serving log disk).blockSize) 0 =
        diskBlock disk (serving log disk).blockSize 20 := by
  set fs := serving log disk with hfs
  have hfslog : fs.logBlockSize ≤ 2 := hlog
  obtain ⟨-, hlo, hhi, -⟩ := blockSize_of_le hfslog
  have hsize : (blockDir fs.blockSize).size < 2 ^ 31 := show fs.blockSize < 2 ^ 31 by omega
  have hend : 0 * fs.blockSize + fs.blockSize ≤ (blockDir fs.blockSize).size :=
    show 0 * fs.blockSize + fs.blockSize ≤ fs.blockSize by omega
  obtain ⟨hres, hbytes⟩ := readInode_block (isDir_blockDir _) hfslog hsize (by norm_num) hend
  constructor
  · rw [readDirBlock, hres, Int16.lt_iff_toInt_lt, int16_toInt_of_lt (by omega)]
    simp only [Int16.toInt_zero]
    omega
  · have hread : fs.readFileBlock (blockDir fs.blockSize) 0 = diskBlock disk fs.blockSize 20 := by
      have hblock : fs.fileBlockToFsBlock (blockDir fs.blockSize) 0 = 20 := rfl
      rw [readFileBlock, hblock]
      have hlt : 20 * fs.blockSize < 2 ^ 32 := by omega
      simp only [OfNat.ofNat_ne_zero, if_false, ext2ReadBlock, toUint32_of_lt hlt]
      rfl
    have hlength : (diskBlock disk fs.blockSize 20).length = fs.blockSize := by simp [diskBlock]
    simp only [dirBuf, loadDirBlock, readDirBlock]
    rw [hbytes, hread, List.take_of_length_le hlength.le]
    change _ ++ ([] : List UInt8).drop _ = _
    rw [List.drop_nil, List.append_nil]

/-- The lengths of its records. -/
theorem recLen_lensDisk {bs pos : ℕ} (halign : pos % 4 = 0) (hfit : pos + 8 ≤ bs) (hlens : lens pos < 2 ^ 16) :
    recLen (diskBlock (lensDisk bs lens) bs 20) pos = lens pos := by
  have hbyte : ∀ i < bs, (diskBlock (lensDisk bs lens) bs 20).getD i 0 = lensDisk bs lens (20 * bs + i) := by
    intro i hi
    simp [diskBlock, List.getD_eq_getElem?_getD, hi]
  rw [recLen, le16, hbyte _ (by omega), hbyte _ (by omega), lensDisk, lensDisk]
  simp only [Nat.add_sub_cancel_left]
  rw [if_pos (by omega), if_neg (by omega), if_pos (by omega), Nat.add_sub_cancel, show pos + 4 + 1 - 5 = pos by omega,
    UInt8.toNat_ofNat', UInt8.toNat_ofNat']
  omega

/-- They have no names. -/
theorem not_nameMatches_lensDisk {bs pos : ℕ} (halign : pos % 4 = 0) (hfit : pos + 8 ≤ bs) {name : List Char8}
    (hname : name ≠ []) : ¬ NameMatches (diskBlock (lensDisk bs lens) bs 20) pos name := by
  have hbyte : (diskBlock (lensDisk bs lens) bs 20).getD (pos + 6) 0 = lensDisk bs lens (20 * bs + (pos + 6)) := by
    simp [diskBlock, List.getD_eq_getElem?_getD, show pos + 6 < bs by omega]
  rintro ⟨hlen, -⟩
  rw [hbyte, lensDisk] at hlen
  simp only [Nat.add_sub_cancel_left] at hlen
  rw [if_neg (by omega), if_neg (by omega)] at hlen
  exact hname (List.length_eq_zero_iff.mp hlen.symm)

end Wrap

/-- **Every overlong record is in a directory on which the lookup does not return**: a record before it leads to
it, and it leads back to one before it. -/
theorem exists_not_returns {log pos r : ℕ} (hlog : log ≤ 2) (halign : pos % 4 = 0) (hfit : pos + 8 ≤ 1024 * 2 ^ log)
    (hr : r < 2 ^ 16) (hlong : 65533 ≤ pos + r) {name : List Char8} (hname : name ≠ []) :
    ∃ disk, 0 < ((serving log disk).readDirBlock (blockDir (serving log disk).blockSize) 0).1 ∧
      RecordAt (serving log disk).blockSize (diskBlock disk (serving log disk).blockSize 20) name pos ∧
      recLen (diskBlock disk (serving log disk).blockSize 20) pos = r ∧
      ¬ (serving log disk).LookupReturns (blockDir (serving log disk).blockSize) name := by
  have hlogs : ∀ disk, (serving log disk).logBlockSize ≤ 2 := fun _ => hlog
  have hbs : ∀ disk, (serving log disk).blockSize = 1024 * 2 ^ log := fun disk => (blockSize_of_le (hlogs disk)).1
  have hmax : 1024 * 2 ^ log ≤ 4096 := by
    have hle := (blockSize_of_le (hlogs fun _ => 0)).2.2.1
    rwa [hbs] at hle
  -- where the wrap-around leads to: `pos` or a position before it
  obtain ⟨next, hnext⟩ : ∃ next, toUint (pos + roundup4 r) = next := ⟨_, rfl⟩
  have hback : next % 4 = 0 ∧ next ≤ pos := by
    simp only [roundup4, toUint] at hnext
    omega
  refine ⟨lensDisk (1024 * 2 ^ log) (wrapLens pos r next), ?_⟩
  obtain ⟨hread, hbuf⟩ := readDirBlock_serving hlog (lensDisk (1024 * 2 ^ log) (wrapLens pos r next))
  have hgets : (serving log (lensDisk (1024 * 2 ^ log) (wrapLens pos r next))).GetsTo
      (blockDir (serving log (lensDisk (1024 * 2 ^ log) (wrapLens pos r next))).blockSize) name 0 :=
    ⟨fun j hj => by obtain rfl := Nat.le_zero.mp hj; exact hread, fun j hj => absurd hj (Nat.not_lt_zero j)⟩
  have hcirc := fun h => lookupReturns_iff.mp h (isDir_blockDir _) 0 (Nat.zero_le _) hgets
  rw [hbuf, hbs] at hcirc
  rw [hbs] at hread ⊢
  set bs := 1024 * 2 ^ log with hbsdef
  set buf := diskBlock (lensDisk bs (wrapLens pos r next)) bs 20 with hbufdef
  have hmatch : ∀ {p}, p % 4 = 0 → p ≤ pos → ¬ NameMatches buf p name := fun hp hle =>
    not_nameMatches_lensDisk hp (by omega) hname
  have hrec : recLen buf pos = r := by
    have hlens : wrapLens pos r next pos = r := if_pos rfl
    rw [hbufdef, recLen_lensDisk halign hfit (by omega), hlens]
  have hother : ∀ {p}, p % 4 = 0 → p < pos → p = next ∨ p = 0 → recLen buf p = pos - p := by
    intro p hp hlt hcase
    have hlens : wrapLens pos r next p = pos - p := by
      rw [wrapLens, if_neg hlt.ne]
      split_ifs with h₁ h₂
      · rw [h₁]
      · rw [h₂, Nat.sub_zero]
      · exact absurd hcase (not_or.mpr ⟨h₁, h₂⟩)
    rw [hbufdef, recLen_lensDisk hp (by omega) (by omega), hlens]
  -- a record before the overlong one leads to it
  have hto : ∀ {p}, p % 4 = 0 → p < pos → p = next ∨ p = 0 →
      PassedOver bs buf name p ∧ p + recLen buf p < 65533 ∧ p + (recLen buf p + 3) / 4 * 4 = pos := by
    intro p hp hlt hcase
    have hlen := hother hp hlt hcase
    exact ⟨⟨by omega, by omega, hmatch hp hlt.le⟩, by omega, by omega⟩
  have hrecord : RecordAt bs buf name pos := by
    rcases Nat.eq_zero_or_pos pos with rfl | hpos
    · exact .first
    · obtain ⟨hpass, hshort, heq⟩ := hto rfl hpos (Or.inr rfl)
      have h := RecordAt.next .first hpass hshort
      rwa [heq] at h
  refine ⟨hread, hrecord, hrec, fun h => hcirc h ⟨pos, hrecord.onChain, ?_⟩⟩
  -- and the overlong one to a record before it, or to itself
  have hfollow : Follows bs buf name pos next :=
    follows_iff.mpr ⟨⟨by omega, by omega, hmatch halign le_rfl⟩, by rw [nextPos, hrec, hnext]⟩
  rcases hback.2.eq_or_lt with heq | hlt
  · exact .single (heq ▸ hfollow)
  · obtain ⟨hpass, hshort, heq⟩ := hto hback.1 hlt (Or.inl rfl)
    refine .tail (.single hfollow) (follows_iff.mpr ⟨hpass, ?_⟩)
    rw [nextPos_of_short hshort, heq]

end Ext2

/-- **Lookups that return.** A lookup in a directory returns if it comes to no record that is overlong; it does not if
it comes to one whose length is at least 65533; a lookup returns if and only if it gets to no overlong record that
leads back to itself; and every position in a block and every length that are those of an overlong record are so in a
directory on which the lookup does not return. -/
theorem ext2_dir_lookup_returns_iff (fs : Ext2) (dir : Inode) (name : List Char8) :
    ((dir.IsDir → ∀ k ≤ 1024, fs.ComesTo dir name k → ∀ pos,
      Ext2.RecordAt fs.blockSize (fs.dirBuf dir k) name pos →
        ¬ Ext2.Overlong fs.blockSize (fs.dirBuf dir k) name pos) → fs.LookupReturns dir name) ∧
    (∀ k pos, dir.IsDir → k ≤ 1024 → fs.ComesTo dir name k →
      Ext2.RecordAt fs.blockSize (fs.dirBuf dir k) name pos → Ext2.Overlong fs.blockSize (fs.dirBuf dir k) name pos →
        65533 ≤ recLen (fs.dirBuf dir k) pos → ¬ fs.LookupReturns dir name) ∧
    (fs.LookupReturns dir name ↔
      (dir.IsDir → ∀ k ≤ 1024, fs.GetsTo dir name k → ∀ pos,
        Ext2.OnChain fs.blockSize (fs.dirBuf dir k) name pos →
          Ext2.Overlong fs.blockSize (fs.dirBuf dir k) name pos →
            ¬ TransGen (Ext2.Follows fs.blockSize (fs.dirBuf dir k) name) pos pos)) ∧
    ∀ log ≤ 1, ∀ pos r name, pos % 4 = 0 → pos + 8 ≤ 1024 * 2 ^ log → r < 2 ^ 16 → 65533 ≤ pos + r → name ≠ [] →
      ∃ disk, let fs := Ext2.serving log disk
        let dir := Ext2.blockDir fs.blockSize
        let block := Ext2.diskBlock disk fs.blockSize 20
        0 < (fs.readDirBlock dir 0).1 ∧ Ext2.RecordAt fs.blockSize block name pos ∧ recLen block pos = r ∧
          ¬ fs.LookupReturns dir name := by
  refine ⟨Ext2.lookupReturns_of_short, ?_, ?_, ?_⟩
  · intro k pos hdir hk hcomes hpos hlong hrec hreturns
    exact Ext2.lookupReturns_iff.mp hreturns hdir k hk hcomes.getsTo
      (hlong.self hpos.onChain hrec (Ext2.recLen_lt _ _))
  · rw [Ext2.lookupReturns_iff]
    simp only [Ext2.circular_iff, not_exists, not_and]
  · intro log hlog pos r name halign hfit hr hlong hname
    exact Ext2.exists_not_returns (by omega) halign hfit hr hlong hname

/-- In a block of bytes 255 the length of the first record is rounded to 0. -/
theorem not_returns_ones :
    ¬ ∃ r, Loop.Returns ((Ext2.serving 0 fun _ => 255).dirTurn ⟨0x41ED, 1024, [20]⟩ [97]) .start r := by
  rintro ⟨r, hr⟩
  have hgets : (Ext2.serving 0 fun _ => 255).GetsTo ⟨0x41ED, 1024, [20]⟩ [97] 0 := by
    refine ⟨fun j hj => ?_, fun j hj => absurd hj (by omega)⟩
    obtain rfl := Nat.le_zero.mp hj
    decide
  have hback : Ext2.Follows (Ext2.serving 0 fun _ => 255).blockSize
      ((Ext2.serving 0 fun _ => 255).dirBuf ⟨0x41ED, 1024, [20]⟩ 0) [97] 0 0 :=
    Ext2.scanTurn_eq_inl_iff.mp (by decide +kernel)
  have hrecord := (Loop.returns_iff_of_visits (hgets.visits (by decide) 0 (by omega))).mp hr
  exact hrecord.not_comesBack (Ext2.comesBack_record ⟨0, .refl, .single hback⟩)

end I80k.Kernel

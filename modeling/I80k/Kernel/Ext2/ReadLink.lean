import I80k.Kernel.Ext2.Dir
import I80k.Kernel.Ext2.ReadInode

/-!
# The targets of symbolic links

A target of less than 60 bytes is stored in the inode itself, in the place of its block pointers; a longer
one is in a data block. `ext2_read_link` makes this choice with `linklen > 60`, so it agrees with the disk
for all lengths but one: a target of exactly 60 bytes is in a data block, and the pointer to this block is
taken for the first four bytes of the target.

## Main definitions

* `Ext2.ext2ReadLinkInto`: the function, with the caller's buffer
* `Ext2.EncodesLink`: an inode and a disk that hold a target
* `Ext2.DecodesLink`: the target is read back

## Main results

* `Ext2.ext2ReadLinkInto_short`, `Ext2.ext2ReadLinkInto_long`: what the buffer holds afterwards
* `Ext2.ext2ReadLink_eq`: the string in the buffer is that of `ext2ReadLink`
* `ext2_read_link_decodes_iff`: the target is read back if and only if its length is not 60
-/

namespace I80k.Kernel

open FlatArray

namespace Ext2

variable (fs : Ext2) (inode : Inode)

/-- The bytes of `i_block` in memory. -/
def blockArray : List UInt8 := inode.block.flatMap bytesLe32

/-- `ext2_read_link(ext2, inode, str, len)`: its result, and the buffer afterwards. -/
def ext2ReadLinkInto (str : List UInt8) (len : ℕ) : Int16 × List UInt8 :=
  let linklen := fs.ext2FileLen inode
  if linklen < 0 ∨ (len : ℤ) < linklen + 1 then (errNoMem, str)
  else if 60 < linklen then
    let (err, str) := fs.ext2ReadInodeInto inode str 0 (toUint linklen.toNat)
    if err < 0 then (err, str)
    else (Int16.ofInt linklen, splice str linklen.toNat [0])
  else
    let str := splice str 0 ((blockArray inode).take linklen.toNat)
    (Int16.ofInt linklen, splice str linklen.toNat [0])

/-- The inode of a link with the target `t`. A target of less than 60 bytes is in `i_block`, with zeros after
it; a longer one is in the data block that `i_block[0]` points to. -/
structure EncodesLink (disk : ℕ → UInt8) (t : List Char8) : Prop where
  isLnk : inode.IsLnk
  size : inode.size = t.length
  inline : t.length < 60 → blockArray inode = t ++ List.replicate (60 - t.length) 0
  block : 60 ≤ t.length → ∃ b ≠ 0, inode.block = b :: List.replicate 14 0 ∧
    t = (List.range t.length).map fun i => disk (b * fs.blockSize + i)

/-- The result is the length of the target, and the buffer holds the target with its terminator. -/
def DecodesLink (t : List Char8) (str : List UInt8) : Prop :=
  (fs.ext2ReadLinkInto inode str 512).1.toInt = t.length ∧
    (fs.ext2ReadLinkInto inode str 512).2.take (t.length + 1) = t ++ [0]

variable {fs inode} {disk : ℕ → UInt8}

theorem fileLen_of_isLnk (h : inode.IsLnk) (hsize : inode.size < 2 ^ 31) :
    fs.ext2FileLen inode = inode.size := by
  have hreg : ¬ inode.IsReg := by
    intro hreg
    rw [Inode.IsReg, h] at hreg
    simp at hreg
  rw [ext2FileLen, if_neg (fun h => hreg h.2), toOff_of_lt hsize]

/-- A target of at most 60 bytes is read from the inode. -/
theorem ext2ReadLinkInto_short {n : ℕ} (hn : fs.ext2FileLen inode = n) (hle : n ≤ 60)
    (hblock : n ≤ (blockArray inode).length) (str : List UInt8) :
    fs.ext2ReadLinkInto inode str 512 =
      (Int16.ofNat n, splice str 0 ((blockArray inode).take n ++ [0])) := by
  have hlength : ((blockArray inode).take n).length = n := List.length_take_of_le hblock
  have hend := @splice_splice _ str ((blockArray inode).take n) [0] 0 (Nat.zero_le _)
  rw [hlength, Nat.zero_add] at hend
  simp only [ext2ReadLinkInto, hn]
  rw [if_neg (by omega), if_neg (by omega), Int.toNat_natCast, hend]
  rfl

/-- The whole file is read. -/
theorem trimLen_link {n : ℕ} (hn : fs.ext2FileLen inode = n) (hle : n ≤ 511) : fs.trimLen inode 0 n = n := by
  rw [trimLen, hn, toOff_of_lt (by norm_num), toOff_of_lt (by omega), if_neg (by omega), if_pos (by omega)]
  omega

/-- A longer target is read as the bytes of the file. -/
theorem ext2ReadLinkInto_long {n : ℕ} (hlog : fs.logBlockSize ≤ 4) (hn : fs.ext2FileLen inode = n)
    (hlt : 60 < n) (hle : n ≤ 511) (hread : ReadsRange fs inode disk 0 n) (str : List UInt8) :
    fs.ext2ReadLinkInto inode str 512 =
      (Int16.ofNat n, splice str 0 (fs.fileBytes inode disk 0 n ++ [0])) := by
  obtain ⟨-, hlo, hhi⟩ := blockSize_le hlog
  obtain ⟨hcount, hbuf⟩ :=
    readInodeVars_filled (trimLen_link hn hle) (by omega) hhi (fun _ => by omega) (by omega) hread str
  have hend := @splice_splice _ str (fs.fileBytes inode disk 0 n) [0] 0 (Nat.zero_le _)
  rw [length_fileBytes, Nat.zero_add] at hend
  simp only [ext2ReadLinkInto, hn, Int.toNat_natCast, ext2ReadInodeInto]
  rw [if_neg (by omega), if_pos (by omega), toUint_of_lt (by omega), hcount, hbuf,
    if_neg (int16_not_neg_of_lt (by omega)), hend]
  rfl

theorem length_blockArray (h : inode.block.length = 15) : (blockArray inode).length = 60 := by
  simp [blockArray, List.length_flatMap, bytesLe32, h]

theorem cstring_append_zero (a rest : List Char8) : cstring (a ++ 0 :: rest) = cstring a := by
  induction a with
  | nil => rfl
  | cons c a ih =>
    simp only [cstring, List.cons_append, List.takeWhile_cons] at ih ⊢
    rw [ih]

theorem cstring_splice (str a : List Char8) : cstring (splice str 0 (a ++ [0])) = cstring a := by
  have hsplit : splice str 0 (a ++ [0]) = a ++ 0 :: str.drop (0 + (a ++ [0]).length) := by simp [splice]
  rw [hsplit, cstring_append_zero]

/-- The string in the buffer, and the one without it. -/
theorem ext2ReadLink_eq (hlog : fs.logBlockSize ≤ 4) (hblock : inode.block.length = 15)
    (hread : ∀ n : ℕ, fs.ext2FileLen inode = n → n ≤ 511 → ReadsRange fs inode disk 0 n) (str : List UInt8) :
    fs.ext2ReadLink inode =
      if (fs.ext2ReadLinkInto inode str 512).1 < 0 then .error (fs.ext2ReadLinkInto inode str 512).1
      else .ok (cstring (fs.ext2ReadLinkInto inode str 512).2) := by
  by_cases hfail : fs.ext2FileLen inode < 0 ∨ ((512 : ℕ) : ℤ) < fs.ext2FileLen inode + 1
  · have hinto : fs.ext2ReadLinkInto inode str 512 = (errNoMem, str) := if_pos hfail
    rw [hinto, if_pos (show errNoMem < 0 by decide)]
    exact if_pos hfail
  · obtain ⟨n, hn⟩ := Int.eq_ofNat_of_zero_le (show 0 ≤ fs.ext2FileLen inode by omega)
    have hpos : ¬ Int16.ofNat n < 0 := int16_not_neg_of_lt (by omega)
    simp only [ext2ReadLink, hn, Int.toNat_natCast]
    rw [if_neg (by omega)]
    by_cases hlong : 60 < n
    · obtain ⟨-, hlo, hhi⟩ := blockSize_le hlog
      have hrange := hread n hn (by omega)
      obtain ⟨hresult, hbytes⟩ := bytes_readInode (trimLen_link hn (by omega)) (by omega)
        (fun _ => by omega) hrange
      rw [if_pos (by omega), ext2ReadLinkInto_long hlog hn (by omega) (by omega) hrange, cstring_splice,
        if_neg hpos, hresult, if_neg hpos, hbytes, List.take_of_length_le (by rw [length_fileBytes])]
    · rw [if_neg (by omega), ext2ReadLinkInto_short hn (by omega) (by rw [length_blockArray hblock]; omega),
        cstring_splice, if_neg hpos, blockArray]

/-- The target in a data block is the contents of the file. -/
theorem EncodesLink.fileBytes {t : List Char8} (h : fs.EncodesLink inode disk t) (hlog : fs.logBlockSize ≤ 4)
    (hle : 60 ≤ t.length) (hlen : t.length ≤ 511) : fs.fileBytes inode disk 0 t.length = t := by
  obtain ⟨-, hlo, -⟩ := blockSize_le hlog
  obtain ⟨b, hb, hblock, htext⟩ := h.block hle
  have hphys : fs.fileBlockToFsBlock inode 0 = b := by
    have hdirect : fs.ext2CalculateBlockPointerPos 0 = some [0] := rfl
    rw [fileBlockToFsBlock, hdirect, hblock]
    rfl
  refine Eq.trans (List.map_congr_left fun i hi => ?_) htext.symm
  have hlt : i < fs.blockSize := by
    have := List.mem_range.mp hi
    omega
  rw [Nat.zero_add, fileByte, Nat.div_eq_of_lt hlt, Nat.mod_eq_of_lt hlt, hphys]
  exact if_neg hb

/-- A pointer to a block is no text. -/
theorem EncodesLink.blockArray_ne {t : List Char8} (h : fs.EncodesLink inode disk t) (h₀ : 0 ∉ t)
    (hlen : t.length = 60) : (blockArray inode).take 60 ≠ t := by
  obtain ⟨b, -, hblock, -⟩ := h.block hlen.ge
  rintro rfl
  refine h₀ ?_
  rw [blockArray, hblock]
  simp [bytesLe32]

end Ext2

/-- **A target is read back** if and only if its length is not 60. -/
theorem ext2_read_link_decodes_iff (fs : Ext2) (disk : ℕ → UInt8) (inode : Inode) (t : List Char8)
    (str : List UInt8) (hlog : fs.logBlockSize ≤ 4) (h₀ : 0 ∉ t) (hlen : t.length ≤ 511)
    (henc : fs.EncodesLink inode disk t) (hread : 60 ≤ t.length → fs.ReadsBlock inode disk 0) :
    fs.DecodesLink inode t str ↔ t.length ≠ 60 := by
  obtain ⟨-, hlo, -⟩ := Ext2.blockSize_le hlog
  have hn : fs.ext2FileLen inode = t.length := by
    rw [Ext2.fileLen_of_isLnk henc.isLnk (by rw [henc.size]; omega), henc.size]
  -- the buffer holds `a`, that is the target unless the pointer was taken for it
  have hdecodes : ∀ a : List UInt8, a.length = t.length →
      fs.ext2ReadLinkInto inode str 512 = (Int16.ofNat t.length, splice str 0 (a ++ [0])) →
        (fs.DecodesLink inode t str ↔ a = t) := by
    intro a ha hinto
    have htake := @take_splice _ str (a ++ [0])
    rw [List.length_append, List.length_singleton, ha] at htake
    rw [Ext2.DecodesLink, hinto, htake, int16_toInt_of_lt (by omega)]
    simp
  rcases lt_trichotomy t.length 60 with hlt | heq | hgt
  · have harray := henc.inline hlt
    have hshort := Ext2.ext2ReadLinkInto_short hn (by omega) (by rw [harray, List.length_append]; omega) str
    rw [harray, List.take_left] at hshort
    exact iff_of_true ((hdecodes t rfl hshort).mpr rfl) (by omega)
  · obtain ⟨b, -, hblock, -⟩ := henc.block heq.ge
    have hlength : (Ext2.blockArray inode).length = 60 := Ext2.length_blockArray (by rw [hblock]; rfl)
    have hshort := Ext2.ext2ReadLinkInto_short hn heq.le (by omega) str
    rw [hdecodes _ (by rw [List.length_take]; omega) hshort, heq]
    exact iff_of_false (henc.blockArray_ne h₀ heq) (by simp)
  · have hrange : Ext2.ReadsRange fs inode disk 0 t.length := by
      intro b _ hb
      obtain rfl : b = 0 := by
        by_contra hne
        have := Nat.mul_le_mul_right fs.blockSize (Nat.one_le_iff_ne_zero.mpr hne)
        omega
      exact hread (by omega)
    have hlong := Ext2.ext2ReadLinkInto_long hlog hn hgt hlen hrange str
    rw [henc.fileBytes hlog (by omega) hlen] at hlong
    exact iff_of_true ((hdecodes t rfl hlong).mpr rfl) (by omega)

/-- A link whose target is in block 20. -/
def linkInode (size : ℕ) : Inode := ⟨0xA1FF, size, 20 :: List.replicate 14 0⟩

/-- On a disk full of the letter `a`, its target is a word of this letter. -/
theorem encodesLink_letters {size : ℕ} (h : 60 ≤ size) :
    (Ext2.serving 0 fun _ => 97).EncodesLink (linkInode size) (fun _ => 97) (List.replicate size 97) where
  isLnk := show 0xA1FF &&& Inode.fmt = 0xA000 by decide
  size := (List.length_replicate).symm
  inline hlt := absurd hlt (by rw [List.length_replicate]; omega)
  block _ := ⟨20, by decide, rfl, by rw [List.length_replicate, List.map_const', List.length_range]⟩

/-- A target of 61 letters is read back. -/
theorem ext2_read_link_decodes_letters :
    (Ext2.serving 0 fun _ => 97).EncodesLink (linkInode 61) (fun _ => 97) (List.replicate 61 97) ∧
      (Ext2.serving 0 fun _ => 97).DecodesLink (linkInode 61) (List.replicate 61 97)
        (List.replicate 512 0) := by
  refine ⟨encodesLink_letters (by norm_num), ?_⟩
  exact (ext2_read_link_decodes_iff _ (fun _ => 97) _ _ _ (by decide) (by decide) (by decide)
    (encodesLink_letters (by norm_num)) fun _ =>
      Ext2.readsBlock_serving (show 20 * 1024 < 2 ^ 32 by norm_num)).mpr (by decide)

/-- A target of 60 letters is not. -/
theorem not_decodesLink_letters :
    (Ext2.serving 0 fun _ => 97).EncodesLink (linkInode 60) (fun _ => 97) (List.replicate 60 97) ∧
      ¬ (Ext2.serving 0 fun _ => 97).DecodesLink (linkInode 60) (List.replicate 60 97)
        (List.replicate 512 0) := by
  refine ⟨encodesLink_letters le_rfl, fun h => ?_⟩
  exact absurd h.2 (by decide)

end I80k.Kernel

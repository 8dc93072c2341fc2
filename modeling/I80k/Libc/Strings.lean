import I80k.Lib.StringInstr

/-!
# Comparing and measuring memory

`memcmp` and `strnlen` of `libc/string/string.S`, with string instructions. A pointer is the offset of a byte in
the data segment; `es` is set to it. The registers that a function saves and restores, and its frame on the
stack, are left out: the arguments are those that it loads from its frame, and its result is what is in `ax`
when it returns.

`memcmp` loads its first argument into `di`, and its second one into `si`. It subtracts what is at `di` from what
is at `si`, at every exit: where the bytes differ, the sign is that of the second one less the first one.
`strnlen` takes the distance to the byte behind the last one that was scanned, less one: that is the length if
this byte is zero, and one too little if it is not.

## Main definitions

* `memcmp`, `strnlen`: the functions
* `FirstDiff`: the first byte that differs
* `ComparesAsC`: the result of `memcmp` is zero, or has the sign of the first one less the second one
* `HonoursBound`: the result of `strnlen` is the length up to its bound, and nothing is read from there on

## Main results

* `memcmp_of_eq`, `memcmp_of_firstDiff`: what `memcmp` returns
* `memcmp_compares_iff`: it compares as C does exactly for equal bytes
* `strnlen_of_nul`, `strnlen_of_no_nul`: what `strnlen` returns
* `strnlen_honours_iff`: it honours its bound exactly if there is a zero before it
-/

namespace I80k.Libc

open StringInstr

/-! ## The functions -/

section Functions

variable (mem : BitVec 16 → BitVec 8)

/-- `.L3` of `memcmp`. -/
def memcmpL3 (r : Regs) : BitVec 16 :=
  let r := r.setAl (mem (r.si - 1)) -- movb -1(%si), %al
  let r := r.setAh 0 -- xorb %ah, %ah
  let r := r.setDl (mem (r.di - 1)) -- movb -1(%di), %dl
  let r := r.setDh 0 -- xorb %dh, %dh
  r.ax - r.dx -- subw %dx, %ax

/-- `.L4` of `memcmp`. -/
def memcmpL4 (r : Regs) : BitVec 16 :=
  let r := r.setAl r.ah -- movb %ah, %al
  let r := r.setDl r.dh -- movb %dh, %dl
  let r := r.setAh 0 -- xorb %ah, %ah
  let r := r.setDh 0 -- xorb %dh, %dh
  r.ax - r.dx -- subw %dx, %ax

/-- `.L1` of `memcmp`. -/
def memcmpL1 (r : Regs) : BitVec 16 :=
  let r := { r with ax := word mem (r.si - 2) } -- movw -2(%si), %ax
  let r := { r with dx := word mem (r.di - 2) } -- movw -2(%di), %dx
  if r.al = r.dl then memcmpL4 r -- cmpb %al, %dl; je .L4
  else
    let r := r.setAh 0 -- xorb %ah, %ah
    let r := r.setDh 0 -- xorb %dh, %dh
    r.ax - r.dx -- subw %dx, %ax

/-- `memcmp(m1, m2, n)`, with any contents of the other registers. -/
def memcmp (r : Regs) (m1 m2 n : BitVec 16) : BitVec 16 :=
  let r := { r with di := m1 } -- mov 4(%bp), %di
  let r := { r with si := m2 } -- mov 6(%bp), %si
  let r := { r with cx := n } -- mov 8(%bp), %cx
  let r := { r with dx := r.cx } -- movw %cx, %dx
  let r := { r with cx := r.cx >>> 1, zf := r.cx >>> 1 = 0 } -- shrw $1, %cx
  let r := repe (cmpsw mem) r -- repe cmpsw
  if ¬ r.zf then memcmpL1 mem r -- jne .L1
  else if r.dl &&& 1 = 0 then 0 -- testb $1, %dl; jz .L2
  else
    let r := cmpsb mem r -- cmpsb
    if ¬ r.zf then memcmpL3 mem r -- jne .L3
    else 0 -- .L2: xorw %ax, %ax

/-- `strnlen(s, maxlen)`: its result, and the offsets that it reads. -/
def strnlen (r : Regs) (s maxlen : BitVec 16) : BitVec 16 × List (BitVec 16) :=
  let r := { r with bx := s, reads := [] } -- mov 4(%bp), %bx
  let r := { r with di := r.bx } -- mov %bx, %di
  let r := { r.setAl 0 with zf := true } -- xorb %al, %al
  let r := { r with cx := maxlen } -- mov 6(%bp), %cx
  let r := repne (scasb mem) r -- repne scasb
  let r := { r with ax := r.di } -- mov %di, %ax
  let r := { r with ax := r.ax - r.bx } -- sub %bx, %ax
  let r := { r with ax := r.ax - 1 } -- dec %ax
  (r.ax, r.reads)

end Functions

/-- The first index below a bound with a property. -/
theorem exists_first {P : ℕ → Prop} {n : ℕ} (h : ∃ i < n, P i) : ∃ k < n, P k ∧ ∀ i < k, ¬ P i := by
  classical
  refine ⟨Nat.find h, (Nat.find_spec h).1, (Nat.find_spec h).2, fun i hi hp => ?_⟩
  exact Nat.find_min h hi ⟨hi.trans (Nat.find_spec h).1, hp⟩

/-! ## Comparing -/

/-- The bytes of `m1` and `m2` at an index are the same. -/
def SameByte (mem : BitVec 16 → BitVec 8) (m1 m2 : BitVec 16) (i : ℕ) : Prop :=
  mem (m1 + BitVec.ofNat 16 i) = mem (m2 + BitVec.ofNat 16 i)

/-- The first of `n` bytes that differs is the one at `d`. -/
def FirstDiff (mem : BitVec 16 → BitVec 8) (m1 m2 : BitVec 16) (n d : ℕ) : Prop :=
  d < n ∧ ¬ SameByte mem m1 m2 d ∧ ∀ i < d, SameByte mem m1 m2 i

/-- The difference of two bytes, as words. -/
def byteDiff (x y : BitVec 8) : BitVec 16 := (0#8 ++ x) - (0#8 ++ y)

theorem toInt_byteDiff (x y : BitVec 8) : (byteDiff x y).toInt = (x.toNat : ℤ) - y.toNat := by
  have hx := x.isLt
  have hy := y.isLt
  have hword : ∀ b : BitVec 8, (0#8 ++ b).toInt = b.toNat := fun b => BitVec.toInt_zero_append
  rw [byteDiff, BitVec.toInt_sub, hword, hword]
  apply Int.bmod_eq_of_le
  · omega
  · omega

section Memcmp

variable {mem : BitVec 16 → BitVec 8} {r : Regs} {m1 m2 n : BitVec 16} {d : ℕ}

theorem exists_firstDiff {n : ℕ} (h : ¬ ∀ i < n, SameByte mem m1 m2 i) : ∃ d, FirstDiff mem m1 m2 n d := by
  have hex : ∃ i < n, ¬ SameByte mem m1 m2 i := by simpa using h
  obtain ⟨d, hd, hne, hfirst⟩ := exists_first hex
  exact ⟨d, hd, hne, fun i hi => not_not.mp (hfirst i hi)⟩

theorem memcmpL3_eq : memcmpL3 mem r = byteDiff (mem (r.si - 1)) (mem (r.di - 1)) := by
  have hal : ((r.setAl (mem (r.si - 1))).setAh 0).ax = 0#8 ++ mem (r.si - 1) := by simp
  have hdl : ∀ r' : Regs, ((r'.setDl (mem (r.di - 1))).setDh 0).dx = 0#8 ++ mem (r.di - 1) := fun r' => by simp
  rw [byteDiff, ← hal, ← hdl ((r.setAl (mem (r.si - 1))).setAh 0)]
  rfl

theorem memcmpL1_eq : memcmpL1 mem r =
    if mem (r.si - 2) = mem (r.di - 2) then byteDiff (mem (r.si - 1)) (mem (r.di - 1))
    else byteDiff (mem (r.si - 2)) (mem (r.di - 2)) := by
  have hsi : r.si - 2 + 1 = r.si - 1 := by bv_omega
  have hdi : r.di - 2 + 1 = r.di - 1 := by bv_omega
  simp only [memcmpL1, memcmpL4, byteDiff, Regs.setAl, Regs.setAh, Regs.setDl, Regs.setDh, Regs.al, Regs.ah, Regs.dl,
    Regs.dh, word, BitVec.extractLsb'_append_eq_left, BitVec.extractLsb'_append_eq_right, hsi, hdi]
  rfl

/-- The registers before the comparison of words. -/
def memcmpRegs (r : Regs) (m1 m2 n : BitVec 16) : Regs :=
  { r with di := m1, si := m2, dx := n, cx := n >>> 1, zf := n >>> 1 = 0 }

theorem toNat_half (n : BitVec 16) : (n >>> 1).toNat = n.toNat / 2 := by
  rw [BitVec.toNat_ushiftRight, Nat.shiftRight_eq_div_pow]

theorem even_iff (n : BitVec 16) : n.extractLsb' 0 8 &&& 1 = 0 ↔ n.toNat % 2 = 0 := by
  have hand : (n.extractLsb' 0 8 &&& 1).toNat = n.toNat % 2 := by
    rw [BitVec.toNat_and, BitVec.extractLsb'_toNat, Nat.shiftRight_zero, show (1 : BitVec 8).toNat = 1 from rfl,
      Nat.and_one_is_mod]
    omega
  rw [← hand]
  exact BitVec.toNat_inj.symm

/-- The function after its arguments are loaded. -/
theorem memcmp_eq : memcmp mem r m1 m2 n =
    let r := repe (cmpsw mem) (memcmpRegs r m1 m2 n)
    if ¬ r.zf then memcmpL1 mem r
    else if r.dl &&& 1 = 0 then 0
    else if ¬ (cmpsb mem r).zf then memcmpL3 mem (cmpsb mem r) else 0 := rfl

/-- The words are those of two bytes each. -/
theorem words_eq_iff (r : Regs) (m1 m2 n : BitVec 16) (i : ℕ) :
    word mem ((memcmpRegs r m1 m2 n).si + BitVec.ofNat 16 (2 * i)) =
        word mem ((memcmpRegs r m1 m2 n).di + BitVec.ofNat 16 (2 * i)) ↔
      SameByte mem m1 m2 (2 * i) ∧ SameByte mem m1 m2 (2 * i + 1) := by
  have hnext : ∀ m : BitVec 16, m + BitVec.ofNat 16 (2 * i) + 1 = m + BitVec.ofNat 16 (2 * i + 1) := fun m => by bv_omega
  change word mem (m2 + _) = word mem (m1 + _) ↔ _
  rw [word_eq_iff, hnext, hnext, and_comm, SameByte, SameByte, eq_comm, @eq_comm _ (mem (m2 + _))]

/-- The first words that differ: the exit is `.L1`. -/
theorem memcmp_of_word {k : ℕ} (hk : k < n.toNat / 2)
    (heq : ∀ i < k, SameByte mem m1 m2 (2 * i) ∧ SameByte mem m1 m2 (2 * i + 1))
    (hne : ¬ (SameByte mem m1 m2 (2 * k) ∧ SameByte mem m1 m2 (2 * k + 1))) :
    memcmp mem r m1 m2 n =
      if mem (m2 + BitVec.ofNat 16 (2 * k)) = mem (m1 + BitVec.ofNat 16 (2 * k)) then
        byteDiff (mem (m2 + BitVec.ofNat 16 (2 * k + 1))) (mem (m1 + BitVec.ofNat 16 (2 * k + 1)))
      else byteDiff (mem (m2 + BitVec.ofNat 16 (2 * k))) (mem (m1 + BitVec.ofNat 16 (2 * k))) := by
  have hcx : k < (memcmpRegs r m1 m2 n).cx.toNat := (toNat_half n).symm ▸ hk
  obtain ⟨hsi, hdi, hzf⟩ := repe_cmpsw_ne hcx (fun i hi => (words_eq_iff r m1 m2 n i).mpr (heq i hi))
    fun h => hne ((words_eq_iff r m1 m2 n k).mp h)
  have hback : ∀ m : BitVec 16, m + BitVec.ofNat 16 (2 * (k + 1)) - 2 = m + BitVec.ofNat 16 (2 * k) ∧
      m + BitVec.ofNat 16 (2 * (k + 1)) - 1 = m + BitVec.ofNat 16 (2 * k + 1) := fun m => by
    constructor <;> bv_omega
  rw [memcmp_eq]
  simp only [hzf, Bool.false_eq_true, not_false_eq_true, if_true, memcmpL1_eq, hsi, hdi]
  change (if mem (m2 + BitVec.ofNat 16 (2 * (k + 1)) - 2) = mem (m1 + BitVec.ofNat 16 (2 * (k + 1)) - 2) then
      byteDiff (mem (m2 + BitVec.ofNat 16 (2 * (k + 1)) - 1)) (mem (m1 + BitVec.ofNat 16 (2 * (k + 1)) - 1))
    else byteDiff (mem (m2 + BitVec.ofNat 16 (2 * (k + 1)) - 2)) (mem (m1 + BitVec.ofNat 16 (2 * (k + 1)) - 2))) = _
  rw [(hback m1).1, (hback m1).2, (hback m2).1, (hback m2).2]

/-- Words that are all equal: what is left is the last byte, if their number is odd. -/
theorem memcmp_of_words (heq : ∀ i < n.toNat / 2, SameByte mem m1 m2 (2 * i) ∧ SameByte mem m1 m2 (2 * i + 1)) :
    memcmp mem r m1 m2 n =
      if n.toNat % 2 = 0 then 0
      else if mem (m2 + BitVec.ofNat 16 (2 * (n.toNat / 2))) = mem (m1 + BitVec.ofNat 16 (2 * (n.toNat / 2))) then 0
      else byteDiff (mem (m2 + BitVec.ofNat 16 (2 * (n.toNat / 2)))) (mem (m1 + BitVec.ofNat 16 (2 * (n.toNat / 2)))) := by
  have hcx : (memcmpRegs r m1 m2 n).cx.toNat = n.toNat / 2 := toNat_half n
  have hzero : (memcmpRegs r m1 m2 n).cx.toNat = 0 → (memcmpRegs r m1 m2 n).zf = true := by
    -- the flag is that of the shift
    intro h
    exact decide_eq_true (BitVec.eq_of_toNat_eq h)
  obtain ⟨hsi, hdi, hdx, hzf⟩ := repe_cmpsw_eq
    (fun i hi => (words_eq_iff r m1 m2 n i).mpr (heq i (hcx ▸ hi))) hzero
  rw [hcx] at hsi hdi
  have hdl : (repe (cmpsw mem) (memcmpRegs r m1 m2 n)).dl = n.extractLsb' 0 8 := by
    rw [Regs.dl, hdx]
    rfl
  have hback : ∀ m k : BitVec 16, m + k + 1 - 1 = m + k := fun m k => by bv_omega
  rw [memcmp_eq]
  simp only [hzf, hdl, even_iff, not_true_eq_false, if_false, memcmpL3_eq, cmpsb, hsi, hdi, decide_eq_true_eq]
  change (if n.toNat % 2 = 0 then 0
    else if ¬ mem (m2 + BitVec.ofNat 16 (2 * (n.toNat / 2))) = mem (m1 + BitVec.ofNat 16 (2 * (n.toNat / 2))) then
      byteDiff (mem (m2 + BitVec.ofNat 16 (2 * (n.toNat / 2)) + 1 - 1))
        (mem (m1 + BitVec.ofNat 16 (2 * (n.toNat / 2)) + 1 - 1)) else 0) = _
  rw [hback, hback, ite_not]

/-- Bytes that are the same, in words. -/
theorem same_words {n : ℕ} (h : ∀ i < n, SameByte mem m1 m2 i) :
    ∀ i < n / 2, SameByte mem m1 m2 (2 * i) ∧ SameByte mem m1 m2 (2 * i + 1) :=
  fun i hi => ⟨h (2 * i) (by omega), h (2 * i + 1) (by omega)⟩

/-- Bytes that are all equal. -/
theorem memcmp_of_eq (h : ∀ i < n.toNat, SameByte mem m1 m2 i) : memcmp mem r m1 m2 n = 0 := by
  rw [memcmp_of_words (same_words h)]
  by_cases heven : n.toNat % 2 = 0
  · exact if_pos heven
  · have hlast : SameByte mem m1 m2 (2 * (n.toNat / 2)) := h _ (by omega)
    rw [if_neg heven, if_pos hlast.symm]

/-- Bytes that are not equal: the operands are the other way round. -/
theorem memcmp_of_firstDiff (h : FirstDiff mem m1 m2 n.toNat d) :
    memcmp mem r m1 m2 n = byteDiff (mem (m2 + BitVec.ofNat 16 d)) (mem (m1 + BitVec.ofNat 16 d)) := by
  obtain ⟨hd, hne, heq⟩ := h
  by_cases hk : d / 2 < n.toNat / 2
  · have hwords := same_words heq
    obtain hlow | hhigh : d = 2 * (d / 2) ∨ d = 2 * (d / 2) + 1 := by omega
    · -- the low byte of the word
      rw [hlow] at hne
      rw [memcmp_of_word hk hwords fun hsame => hne hsame.1, if_neg fun hsame => hne hsame.symm, ← hlow]
    · -- the high byte: the low ones are the same
      have hsame : SameByte mem m1 m2 (2 * (d / 2)) := heq _ (by omega)
      rw [hhigh] at hne
      rw [memcmp_of_word hk hwords fun hsame => hne hsame.2, if_pos hsame.symm, ← hhigh]
  · -- the last byte of an odd number of them, that is in no word
    have hodd : n.toNat % 2 ≠ 0 := by omega
    have hlast : d = 2 * (n.toNat / 2) := by omega
    have hwords := same_words heq
    rw [show d / 2 = n.toNat / 2 by omega] at hwords
    rw [memcmp_of_words hwords, if_neg hodd, ← hlast, if_neg fun hsame => hne hsame.symm]

/-- The sign is that of the second operand less the first one. -/
theorem toInt_memcmp (h : FirstDiff mem m1 m2 n.toNat d) : (memcmp mem r m1 m2 n).toInt =
    ((mem (m2 + BitVec.ofNat 16 d)).toNat : ℤ) - (mem (m1 + BitVec.ofNat 16 d)).toNat := by
  rw [memcmp_of_firstDiff h, toInt_byteDiff]

/-- Different bytes have different values. -/
theorem FirstDiff.toNat_ne {n : ℕ} (h : FirstDiff mem m1 m2 n d) :
    (mem (m1 + BitVec.ofNat 16 d)).toNat ≠ (mem (m2 + BitVec.ofNat 16 d)).toNat :=
  fun heq => h.2.1 (BitVec.eq_of_toNat_eq heq)

theorem memcmp_eq_zero_iff : memcmp mem r m1 m2 n = 0 ↔ ∀ i < n.toNat, SameByte mem m1 m2 i := by
  refine ⟨fun hzero => ?_, memcmp_of_eq⟩
  by_contra h
  obtain ⟨d, hd⟩ := exists_firstDiff h
  have hint := toInt_memcmp (r := r) hd
  rw [hzero] at hint
  change (0 : ℤ) = _ at hint
  have hne := hd.toNat_ne
  omega

/-- The result of `memcmp` is zero for bytes that are all equal, and has else the sign of the first byte that
differs, in `m1`, less the one in `m2`. -/
def ComparesAsC (mem : BitVec 16 → BitVec 8) (r : Regs) (m1 m2 n : BitVec 16) : Prop :=
  (memcmp mem r m1 m2 n = 0 ↔ ∀ i < n.toNat, SameByte mem m1 m2 i) ∧
    ∀ d, FirstDiff mem m1 m2 n.toNat d → (memcmp mem r m1 m2 n).toInt.sign =
      (((mem (m1 + BitVec.ofNat 16 d)).toNat : ℤ) - (mem (m2 + BitVec.ofNat 16 d)).toNat).sign

/-- It compares as C does exactly for bytes that are equal. -/
theorem memcmp_compares_iff (mem : BitVec 16 → BitVec 8) (r : Regs) (m1 m2 n : BitVec 16) :
    ComparesAsC mem r m1 m2 n ↔ ∀ i < n.toNat, SameByte mem m1 m2 i := by
  constructor
  · intro h
    by_contra hdiff
    obtain ⟨d, hd⟩ := exists_firstDiff hdiff
    have hsign := h.2 d hd
    have hne := hd.toNat_ne
    rw [toInt_memcmp hd, ← neg_sub ((mem (m1 + BitVec.ofNat 16 d)).toNat : ℤ), Int.sign_neg] at hsign
    -- a sign that is its own opposite is that of zero
    have hzero : (((mem (m1 + BitVec.ofNat 16 d)).toNat : ℤ) - (mem (m2 + BitVec.ofNat 16 d)).toNat).sign = 0 := by
      omega
    rw [Int.sign_eq_zero_iff_zero] at hzero
    omega
  · intro h
    exact ⟨memcmp_eq_zero_iff, fun d hd => absurd (h d hd.1) hd.2.1⟩

/-- `memcmp("b", "a", 1)` is negative. -/
theorem not_memcmp_compares : ¬ ComparesAsC (fun off => if off = 0 then 98 else 97) ⟨0, 0, 0, 0, 0, 0, false, []⟩ 0 1 1 := by
  intro h
  have hdiff : FirstDiff (fun off => if off = 0 then 98 else 97) 0 1 1 0 :=
    ⟨Nat.one_pos, by simp [SameByte], fun i hi => absurd hi (Nat.not_lt_zero i)⟩
  have hsign := h.2 0 hdiff
  revert hsign
  decide

end Memcmp

/-! ## Measuring -/

section Strnlen

variable {mem : BitVec 16 → BitVec 8} {r : Regs} {s maxlen : BitVec 16} {k : ℕ}

/-- The registers before the scan. -/
def strnlenRegs (r : Regs) (s maxlen : BitVec 16) : Regs :=
  { (r.setAl 0) with bx := s, di := s, cx := maxlen, zf := true, reads := [] }

theorem al_strnlenRegs : (strnlenRegs r s maxlen).al = 0 := Regs.al_setAl

/-- The result from the byte behind the last one that was scanned. -/
theorem strnlen_of_scan {len : BitVec 16} {reads : List (BitVec 16)}
    (h : (repne (scasb mem) (strnlenRegs r s maxlen)).di = s + len ∧
      (repne (scasb mem) (strnlenRegs r s maxlen)).bx = s ∧
        (repne (scasb mem) (strnlenRegs r s maxlen)).reads = reads) :
    strnlen mem r s maxlen = (len - 1, reads) := by
  obtain ⟨hdi, hbx, hreads⟩ := h
  have hdist : s + len - s - 1 = len - 1 := by bv_omega
  apply Prod.ext
  · change (repne (scasb mem) (strnlenRegs r s maxlen)).di - (repne (scasb mem) (strnlenRegs r s maxlen)).bx - 1 = _
    rw [hdi, hbx]
    exact hdist
  · exact hreads

/-- A zero before the bound. -/
theorem strnlen_of_nul (hk : k < maxlen.toNat) (hne : ∀ i < k, mem (s + BitVec.ofNat 16 i) ≠ 0)
    (hnul : mem (s + BitVec.ofNat 16 k) = 0) :
    strnlen mem r s maxlen = (BitVec.ofNat 16 k, offsets s (k + 1)) := by
  have hscan := repne_scasb_eq (r := strnlenRegs r s maxlen) hk
    (fun i hi => al_strnlenRegs.trans_ne (hne i hi).symm) (al_strnlenRegs.trans hnul.symm)
  have hback : BitVec.ofNat 16 (k + 1) - 1 = BitVec.ofNat 16 k := by bv_omega
  exact hback ▸ strnlen_of_scan hscan

/-- No zero before the bound: the result is one too little. -/
theorem strnlen_of_no_nul (hne : ∀ i < maxlen.toNat, mem (s + BitVec.ofNat 16 i) ≠ 0) :
    strnlen mem r s maxlen = (maxlen - 1, offsets s maxlen.toNat) :=
  strnlen_of_scan <| repne_scasb_ne (r := strnlenRegs r s maxlen)
    fun i hi => al_strnlenRegs.trans_ne (hne i hi).symm

/-- The first zero from `s`. -/
def FirstNul (mem : BitVec 16 → BitVec 8) (s : BitVec 16) (k : ℕ) : Prop :=
  mem (s + BitVec.ofNat 16 k) = 0 ∧ ∀ i < k, mem (s + BitVec.ofNat 16 i) ≠ 0

theorem exists_firstNul (h : ∃ i < maxlen.toNat, mem (s + BitVec.ofNat 16 i) = 0) :
    ∃ k < maxlen.toNat, FirstNul mem s k := exists_first h

/-- The result of `strnlen` is the index of the first zero if it is below the bound, and else the bound; bytes
from the bound on are not read. -/
def HonoursBound (mem : BitVec 16 → BitVec 8) (r : Regs) (s maxlen : BitVec 16) : Prop :=
  (∀ k < maxlen.toNat, FirstNul mem s k → (strnlen mem r s maxlen).1 = BitVec.ofNat 16 k) ∧
    ((∀ i < maxlen.toNat, mem (s + BitVec.ofNat 16 i) ≠ 0) → (strnlen mem r s maxlen).1 = maxlen) ∧
      ∀ off ∈ (strnlen mem r s maxlen).2, ∃ i < maxlen.toNat, off = s + BitVec.ofNat 16 i

theorem mem_offsets {off : BitVec 16} {n : ℕ} (h : off ∈ offsets s n) (hn : n ≤ maxlen.toNat) :
    ∃ i < maxlen.toNat, off = s + BitVec.ofNat 16 i := by
  obtain ⟨i, hi, rfl⟩ := List.mem_map.mp h
  exact ⟨i, (List.mem_range.mp hi).trans_le hn, rfl⟩

/-- Bytes from the bound on are never read. -/
theorem strnlen_reads {off : BitVec 16} (h : off ∈ (strnlen mem r s maxlen).2) :
    ∃ i < maxlen.toNat, off = s + BitVec.ofNat 16 i := by
  by_cases hnul : ∃ i < maxlen.toNat, mem (s + BitVec.ofNat 16 i) = 0
  · obtain ⟨k, hk, hfirst⟩ := exists_firstNul hnul
    rw [strnlen_of_nul hk hfirst.2 hfirst.1] at h
    exact mem_offsets h hk
  · have hne : ∀ i < maxlen.toNat, mem (s + BitVec.ofNat 16 i) ≠ 0 := fun i hi hz => hnul ⟨i, hi, hz⟩
    rw [strnlen_of_no_nul hne] at h
    exact mem_offsets h le_rfl

/-- It honours its bound exactly if there is a zero before it. -/
theorem strnlen_honours_iff (mem : BitVec 16 → BitVec 8) (r : Regs) (s maxlen : BitVec 16) :
    HonoursBound mem r s maxlen ↔ ∃ i < maxlen.toNat, mem (s + BitVec.ofNat 16 i) = 0 := by
  constructor
  · intro h
    by_contra hnul
    have hne : ∀ i < maxlen.toNat, mem (s + BitVec.ofNat 16 i) ≠ 0 := fun i hi hz => hnul ⟨i, hi, hz⟩
    have hbound := h.2.1 hne
    rw [strnlen_of_no_nul hne] at hbound
    change maxlen - 1 = maxlen at hbound
    bv_omega
  · rintro ⟨i, hi, hnul⟩
    refine ⟨fun k hk hfirst => ?_, fun hne => absurd hnul (hne i hi), fun off hoff => strnlen_reads hoff⟩
    rw [strnlen_of_nul hk hfirst.2 hfirst.1]

/-- Nothing is read of a string for the bound 0, and its length is 65535. -/
theorem not_strnlen_honours : ¬ HonoursBound (fun _ => 0) ⟨0, 0, 0, 0, 0, 0, false, []⟩ 0 0 := by
  intro h
  have hbound := h.2.1 fun i hi => absurd hi (Nat.not_lt_zero i)
  revert hbound
  decide

end Strnlen

end I80k.Libc

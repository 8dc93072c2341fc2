import Mathlib

/-!
# String instructions

The instructions of the 8086 that compare and scan memory, and their repetition. As long as `cx` is not zero it is
decremented and the instruction executed, until the zero flag is not the one of the prefix. If `cx` is zero from
the start nothing is executed, and the flag is that of an instruction before.

The direction flag is clear, so that the index registers go up, and both of them are used in the same segment,
whose bytes are given by their offsets. Offsets wrap.

## Main definitions

* `Regs`: the registers, the zero flag, and the offsets of the bytes that string instructions read
* `cmpsb`, `cmpsw`, `scasb`: the instructions
* `rep`, `repe`, `repne`: their repetition

## Main results

* `rep_all`, `rep_first`: a repetition ends with its count, or after the first turn that changes the flag
* `repe_cmpsw_eq`, `repe_cmpsw_ne`: words that are equal, and the first ones that are not
* `repne_scasb_ne`, `repne_scasb_eq`: bytes that are not the one looked for, and the first one that is
-/

namespace StringInstr

abbrev Word := BitVec 16

abbrev Byte := BitVec 8

/-- The registers, with the zero flag. -/
structure Regs where
  ax : Word
  bx : Word
  cx : Word
  dx : Word
  si : Word
  di : Word
  zf : Bool
  /-- The offsets of the bytes that were read by string instructions, in order. -/
  reads : List Word

namespace Regs

variable (r : Regs) (b : Byte)

def al : Byte := r.ax.extractLsb' 0 8

def ah : Byte := r.ax.extractLsb' 8 8

def dl : Byte := r.dx.extractLsb' 0 8

def dh : Byte := r.dx.extractLsb' 8 8

def setAl : Regs := { r with ax := r.ah ++ b }

def setAh : Regs := { r with ax := b ++ r.al }

def setDl : Regs := { r with dx := r.dh ++ b }

def setDh : Regs := { r with dx := b ++ r.dl }

variable {r b}

@[simp] theorem al_setAl : (r.setAl b).al = b := BitVec.extractLsb'_append_eq_right

@[simp] theorem dl_setDl : (r.setDl b).dl = b := BitVec.extractLsb'_append_eq_right

@[simp] theorem ax_setAh : (r.setAh b).ax = b ++ r.al := rfl

@[simp] theorem dx_setDh : (r.setDh b).dx = b ++ r.dl := rfl

end Regs

section Instructions

variable (mem : Word → Byte)

/-- The word at an offset, with its low byte first. -/
def word (off : Word) : Word := mem (off + 1) ++ mem off

/-- Words are equal if both of their bytes are. -/
theorem word_eq_iff {mem : Word → Byte} {off off' : Word} :
    word mem off = word mem off' ↔ mem (off + 1) = mem (off' + 1) ∧ mem off = mem off' := by
  constructor
  · intro h
    have hhi := congrArg (BitVec.extractLsb' 8 8) h
    have hlo := congrArg (BitVec.extractLsb' 0 8) h
    rw [word, word, BitVec.extractLsb'_append_eq_left, BitVec.extractLsb'_append_eq_left] at hhi
    rw [word, word, BitVec.extractLsb'_append_eq_right, BitVec.extractLsb'_append_eq_right] at hlo
    exact ⟨hhi, hlo⟩
  · rintro ⟨hhi, hlo⟩
    rw [word, word, hhi, hlo]

def cmpsb (r : Regs) : Regs :=
  { r with
    si := r.si + 1
    di := r.di + 1
    zf := mem r.si = mem r.di
    reads := r.reads ++ [r.si, r.di] }

def cmpsw (r : Regs) : Regs :=
  { r with
    si := r.si + 2
    di := r.di + 2
    zf := word mem r.si = word mem r.di
    reads := r.reads ++ [r.si, r.si + 1, r.di, r.di + 1] }

def scasb (r : Regs) : Regs :=
  { r with
    di := r.di + 1
    zf := r.al = mem r.di
    reads := r.reads ++ [r.di] }

end Instructions

/-! ## Repetition -/

/-- One turn of a repetition. -/
def turn (op : Regs → Regs) (r : Regs) : Regs := op { r with cx := r.cx - 1 }

/-- A repetition with the count `n`, as long as the zero flag is `z` after a turn. -/
def rep (z : Bool) (op : Regs → Regs) : ℕ → Regs → Regs
  | 0, r => r
  | n + 1, r => if (turn op r).zf = z then rep z op n (turn op r) else turn op r

/-- `repe`, or `repz`. -/
def repe (op : Regs → Regs) (r : Regs) : Regs := rep true op r.cx.toNat r

/-- `repne`, or `repnz`. -/
def repne (op : Regs → Regs) (r : Regs) : Regs := rep false op r.cx.toNat r

section Rep

variable {z : Bool} {op : Regs → Regs} {r : Regs} {n k : ℕ}

/-- A repetition that is not ended by the flag. -/
theorem rep_all (h : ∀ i < n, ((turn op)^[i + 1] r).zf = z) : rep z op n r = (turn op)^[n] r := by
  induction n generalizing r with
  | zero => rfl
  | succ n ih =>
    have hfirst : (turn op r).zf = z := h 0 (Nat.succ_pos n)
    rw [rep, if_pos hfirst, Function.iterate_succ_apply]
    apply ih
    intro i hi
    have hnext := h (i + 1) (by omega)
    rwa [Function.iterate_succ_apply] at hnext

/-- A repetition that is ended by the flag. -/
theorem rep_first (hk : k < n) (h : ∀ i < k, ((turn op)^[i + 1] r).zf = z) (hne : ((turn op)^[k + 1] r).zf ≠ z) :
    rep z op n r = (turn op)^[k + 1] r := by
  induction k generalizing n r with
  | zero =>
    obtain ⟨n, rfl⟩ : ∃ m, n = m + 1 := ⟨n - 1, by omega⟩
    exact if_neg hne
  | succ k ih =>
    obtain ⟨n, rfl⟩ : ∃ m, n = m + 1 := ⟨n - 1, by omega⟩
    have hfirst : (turn op r).zf = z := h 0 (Nat.succ_pos k)
    rw [rep, if_pos hfirst, Function.iterate_succ_apply]
    apply ih (by omega)
    · intro i hi
      have hnext := h (i + 1) (by omega)
      rwa [Function.iterate_succ_apply] at hnext
    · rwa [Function.iterate_succ_apply] at hne

end Rep

/-! ## Comparing words -/

section Cmpsw

variable {mem : Word → Byte} {r : Regs} {k : ℕ}

theorem cmpsw_iterate (mem : Word → Byte) (r : Regs) (k : ℕ) :
    ((turn (cmpsw mem))^[k] r).si = r.si + BitVec.ofNat 16 (2 * k) ∧
      ((turn (cmpsw mem))^[k] r).di = r.di + BitVec.ofNat 16 (2 * k) ∧ ((turn (cmpsw mem))^[k] r).dx = r.dx := by
  induction k with
  | zero => simp
  | succ k ih =>
    obtain ⟨hsi, hdi, hdx⟩ := ih
    rw [Function.iterate_succ_apply']
    refine ⟨?_, ?_, hdx⟩
    · change ((turn (cmpsw mem))^[k] r).si + 2 = _
      rw [hsi]
      bv_omega
    · change ((turn (cmpsw mem))^[k] r).di + 2 = _
      rw [hdi]
      bv_omega

/-- The flag after a turn. -/
theorem cmpsw_zf (k : ℕ) : ((turn (cmpsw mem))^[k + 1] r).zf =
    decide (word mem (r.si + BitVec.ofNat 16 (2 * k)) = word mem (r.di + BitVec.ofNat 16 (2 * k))) := by
  obtain ⟨hsi, hdi, -⟩ := cmpsw_iterate mem r k
  rw [Function.iterate_succ_apply', ← hsi, ← hdi]
  rfl

/-- Words that are all equal. -/
theorem repe_cmpsw_eq (heq : ∀ i < r.cx.toNat,
      word mem (r.si + BitVec.ofNat 16 (2 * i)) = word mem (r.di + BitVec.ofNat 16 (2 * i)))
    (hz : r.cx.toNat = 0 → r.zf = true) :
    (repe (cmpsw mem) r).si = r.si + BitVec.ofNat 16 (2 * r.cx.toNat) ∧
      (repe (cmpsw mem) r).di = r.di + BitVec.ofNat 16 (2 * r.cx.toNat) ∧ (repe (cmpsw mem) r).dx = r.dx ∧
        (repe (cmpsw mem) r).zf = true := by
  have hall : repe (cmpsw mem) r = (turn (cmpsw mem))^[r.cx.toNat] r :=
    rep_all fun i hi => by rw [cmpsw_zf, decide_eq_true (heq i hi)]
  obtain ⟨hsi, hdi, hdx⟩ := cmpsw_iterate mem r r.cx.toNat
  rw [hall]
  refine ⟨hsi, hdi, hdx, ?_⟩
  cases hcx : r.cx.toNat with
  | zero => exact hz hcx
  | succ n => rw [cmpsw_zf, decide_eq_true (heq n (by omega))]

/-- The first words that are not equal. -/
theorem repe_cmpsw_ne (hk : k < r.cx.toNat) (heq : ∀ i < k,
      word mem (r.si + BitVec.ofNat 16 (2 * i)) = word mem (r.di + BitVec.ofNat 16 (2 * i)))
    (hne : word mem (r.si + BitVec.ofNat 16 (2 * k)) ≠ word mem (r.di + BitVec.ofNat 16 (2 * k))) :
    (repe (cmpsw mem) r).si = r.si + BitVec.ofNat 16 (2 * (k + 1)) ∧
      (repe (cmpsw mem) r).di = r.di + BitVec.ofNat 16 (2 * (k + 1)) ∧ (repe (cmpsw mem) r).zf = false := by
  have hlast : ((turn (cmpsw mem))^[k + 1] r).zf = false := by rw [cmpsw_zf, decide_eq_false hne]
  have hfirst : repe (cmpsw mem) r = (turn (cmpsw mem))^[k + 1] r :=
    rep_first hk (fun i hi => by rw [cmpsw_zf, decide_eq_true (heq i hi)]) (ne_of_eq_of_ne hlast (by decide))
  obtain ⟨hsi, hdi, -⟩ := cmpsw_iterate mem r (k + 1)
  rw [hfirst]
  exact ⟨hsi, hdi, hlast⟩

end Cmpsw

/-! ## Scanning bytes -/

section Scasb

variable {mem : Word → Byte} {r : Regs} {k : ℕ}

/-- The offsets of `n` bytes. -/
def offsets (off : Word) (n : ℕ) : List Word := (List.range n).map fun i => off + BitVec.ofNat 16 i

theorem scasb_iterate (mem : Word → Byte) (r : Regs) (k : ℕ) :
    ((turn (scasb mem))^[k] r).di = r.di + BitVec.ofNat 16 k ∧ ((turn (scasb mem))^[k] r).ax = r.ax ∧
      ((turn (scasb mem))^[k] r).bx = r.bx ∧ ((turn (scasb mem))^[k] r).reads = r.reads ++ offsets r.di k := by
  induction k with
  | zero => simp [offsets]
  | succ k ih =>
    obtain ⟨hdi, hax, hbx, hreads⟩ := ih
    rw [Function.iterate_succ_apply']
    refine ⟨?_, hax, hbx, ?_⟩
    · change ((turn (scasb mem))^[k] r).di + 1 = _
      rw [hdi]
      bv_omega
    · change ((turn (scasb mem))^[k] r).reads ++ [((turn (scasb mem))^[k] r).di] = _
      rw [hreads, hdi, offsets, offsets, List.range_succ, List.map_append, List.append_assoc]
      rfl

/-- The flag after a turn. -/
theorem scasb_zf (k : ℕ) :
    ((turn (scasb mem))^[k + 1] r).zf = decide (r.al = mem (r.di + BitVec.ofNat 16 k)) := by
  obtain ⟨hdi, hax, -⟩ := scasb_iterate mem r k
  rw [Function.iterate_succ_apply', ← hdi, Regs.al, ← hax]
  rfl

/-- Bytes that are all others than the one looked for. -/
theorem repne_scasb_ne (hne : ∀ i < r.cx.toNat, r.al ≠ mem (r.di + BitVec.ofNat 16 i)) :
    (repne (scasb mem) r).di = r.di + r.cx ∧ (repne (scasb mem) r).bx = r.bx ∧
      (repne (scasb mem) r).reads = r.reads ++ offsets r.di r.cx.toNat := by
  have hall : repne (scasb mem) r = (turn (scasb mem))^[r.cx.toNat] r :=
    rep_all fun i hi => by rw [scasb_zf, decide_eq_false (hne i hi)]
  obtain ⟨hdi, -, hbx, hreads⟩ := scasb_iterate mem r r.cx.toNat
  rw [BitVec.ofNat_toNat, BitVec.setWidth_eq] at hdi
  rw [hall]
  exact ⟨hdi, hbx, hreads⟩

/-- The first byte that is the one looked for. -/
theorem repne_scasb_eq (hk : k < r.cx.toNat) (hne : ∀ i < k, r.al ≠ mem (r.di + BitVec.ofNat 16 i))
    (heq : r.al = mem (r.di + BitVec.ofNat 16 k)) :
    (repne (scasb mem) r).di = r.di + BitVec.ofNat 16 (k + 1) ∧ (repne (scasb mem) r).bx = r.bx ∧
      (repne (scasb mem) r).reads = r.reads ++ offsets r.di (k + 1) := by
  have hlast : ((turn (scasb mem))^[k + 1] r).zf = true := by rw [scasb_zf, decide_eq_true heq]
  have hfirst : repne (scasb mem) r = (turn (scasb mem))^[k + 1] r :=
    rep_first hk (fun i hi => by rw [scasb_zf, decide_eq_false (hne i hi)]) (ne_of_eq_of_ne hlast (by decide))
  obtain ⟨hdi, -, hbx, hreads⟩ := scasb_iterate mem r (k + 1)
  rw [hfirst]
  exact ⟨hdi, hbx, hreads⟩

end Scasb

end StringInstr

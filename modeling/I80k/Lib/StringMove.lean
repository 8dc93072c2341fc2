import I80k.Lib.StringInstr

/-!
# String instructions that move bytes

The instructions of the 8086 that load bytes, and fill and copy memory, and their repetition, which ends with its count.
A copy goes up byte by byte: where the destination begins within the source, it reads bytes that it has written before,
and repeats those between both of them.

## Main definitions

* `Machine`: the registers and the memory
* `lodsb`, `stosb`, `movsb`: the instructions
* `repeated`: their repetition
* `Overlays`: bytes were written at an offset, and no others were changed

## Main results

* `repeated_stosb`: memory that is filled
* `repeated_movsb`: memory that is copied
-/

namespace StringInstr

/-- The registers and the memory. -/
structure Machine where
  regs : Regs
  mem : Word → Byte

/-- `mem'` is `mem`, but for the `n` bytes at `off`, which are those of `bytes`. -/
def Overlays (mem mem' : Word → Byte) (off : Word) (n : ℕ) (bytes : ℕ → Byte) : Prop :=
  ∀ a, mem' a = if (a - off).toNat < n then bytes (a - off).toNat else mem a

section Overlays

variable {mem mem' : Word → Byte} {off : Word} {n : ℕ} {bytes : ℕ → Byte}

theorem Overlays.inside (h : Overlays mem mem' off n bytes) {i : ℕ} (hi : i < n) (hn : n ≤ 2 ^ 16) :
    mem' (off + BitVec.ofNat 16 i) = bytes i := by
  have hdist : (off + BitVec.ofNat 16 i - off).toNat = i := by bv_omega
  rw [h, hdist, if_pos hi]

theorem Overlays.outside (h : Overlays mem mem' off n bytes) {a : Word} (ha : n ≤ (a - off).toNat) :
    mem' a = mem a := by
  rw [h, if_neg (Nat.not_lt.mpr ha)]

theorem Overlays.zero : Overlays mem mem off 0 bytes := fun _ => (if_neg (Nat.not_lt_zero _)).symm

/-- Another byte behind them. -/
theorem Overlays.succ (h : Overlays mem mem' off n bytes) (hn : n < 2 ^ 16) :
    Overlays mem (Function.update mem' (off + BitVec.ofNat 16 n) (bytes n)) off (n + 1) bytes := by
  intro a
  by_cases ha : a = off + BitVec.ofNat 16 n
  · have hdist : (off + BitVec.ofNat 16 n - off).toNat = n := by bv_omega
    rw [ha, Function.update_self, hdist, if_pos n.lt_succ_self]
  · have hne : (a - off).toNat ≠ n := fun hdist => ha (by bv_omega)
    rw [Function.update_of_ne ha, h]
    split_ifs
    · rfl
    · omega
    · omega
    · rfl

theorem Overlays.congr {bytes' : ℕ → Byte} (h : Overlays mem mem' off n bytes) (heq : ∀ i < n, bytes i = bytes' i) :
    Overlays mem mem' off n bytes' := by
  intro a
  rw [h]
  split_ifs with hin
  · exact heq _ hin
  · rfl

end Overlays

section Instructions

def lodsb (mem : Word → Byte) (r : Regs) : Regs :=
  { r.setAl (mem r.si) with si := r.si + 1, reads := r.reads ++ [r.si] }

@[simp] theorem al_lodsb (mem : Word → Byte) (r : Regs) : (lodsb mem r).al = mem r.si := Regs.al_setAl

@[simp] theorem ah_lodsb (mem : Word → Byte) (r : Regs) : (lodsb mem r).ah = r.ah := BitVec.extractLsb'_append_eq_left

@[simp] theorem si_lodsb (mem : Word → Byte) (r : Regs) : (lodsb mem r).si = r.si + 1 := rfl

@[simp] theorem bx_lodsb (mem : Word → Byte) (r : Regs) : (lodsb mem r).bx = r.bx := rfl

variable (m : Machine)

def stosb : Machine where
  regs := { m.regs with di := m.regs.di + 1 }
  mem := Function.update m.mem m.regs.di m.regs.al

def movsb : Machine where
  regs := { m.regs with si := m.regs.si + 1, di := m.regs.di + 1, reads := m.regs.reads ++ [m.regs.si] }
  mem := Function.update m.mem m.regs.di (m.mem m.regs.si)

end Instructions

/-- One turn of a repetition. -/
def move (op : Machine → Machine) (m : Machine) : Machine := op { m with regs := { m.regs with cx := m.regs.cx - 1 } }

/-- `rep`. -/
def repeated (op : Machine → Machine) (m : Machine) : Machine := (move op)^[m.regs.cx.toNat] m

/-! ## Filling -/

theorem stosb_iterate (m : Machine) {k : ℕ} (hk : k ≤ 2 ^ 16) :
    ((move stosb)^[k] m).regs.di = m.regs.di + BitVec.ofNat 16 k ∧ ((move stosb)^[k] m).regs.ax = m.regs.ax ∧
      Overlays m.mem ((move stosb)^[k] m).mem m.regs.di k fun _ => m.regs.al := by
  induction k with
  | zero => exact ⟨by simp, rfl, Overlays.zero⟩
  | succ k ih =>
    obtain ⟨hdi, hax, hmem⟩ := ih (by omega)
    rw [Function.iterate_succ_apply']
    refine ⟨?_, hax, ?_⟩
    · change ((move stosb)^[k] m).regs.di + 1 = _
      rw [hdi]
      bv_omega
    · change Overlays _ (Function.update _ ((move stosb)^[k] m).regs.di ((move stosb)^[k] m).regs.al) _ _ _
      rw [hdi, Regs.al, hax]
      exact hmem.succ hk

/-- Memory that is filled. -/
theorem repeated_stosb (m : Machine) :
    Overlays m.mem (repeated stosb m).mem m.regs.di m.regs.cx.toNat fun _ => m.regs.al :=
  (stosb_iterate m m.regs.cx.isLt.le).2.2

/-! ## Copying -/

/-- The byte that a copy reads next: one of those that it began with, or one that it has written. -/
theorem copied_next {mem mem' : Word → Byte} {si di : Word} {k : ℕ} (hk : k < 2 ^ 16)
    (h : Overlays mem mem' di k fun i => mem (si + BitVec.ofNat 16 (i % (di - si).toNat))) :
    mem' (si + BitVec.ofNat 16 k) = mem (si + BitVec.ofNat 16 (k % (di - si).toNat)) := by
  rw [h]
  generalize hdist : (di - si).toNat = dist
  have hdlt : dist < 2 ^ 16 := hdist ▸ (di - si).isLt
  split_ifs with hwritten
  · -- a byte that was written: it is a whole number of distances before
    have hback : (si + BitVec.ofNat 16 k - di).toNat + dist = k := by bv_omega
    have hmod : (si + BitVec.ofNat 16 k - di).toNat % dist = k % dist := by rw [← hback, Nat.add_mod_right, hback]
    exact congrArg (fun i => mem (si + BitVec.ofNat 16 i)) hmod
  · have hfirst : k % dist = k := by
      rcases Nat.eq_zero_or_pos dist with rfl | hpos
      · exact Nat.mod_zero k
      · apply Nat.mod_eq_of_lt
        by_contra hle
        apply hwritten
        bv_omega
    rw [hfirst]

theorem movsb_iterate (m : Machine) {k : ℕ} (hk : k ≤ 2 ^ 16) :
    ((move movsb)^[k] m).regs.si = m.regs.si + BitVec.ofNat 16 k ∧
      ((move movsb)^[k] m).regs.di = m.regs.di + BitVec.ofNat 16 k ∧ ((move movsb)^[k] m).regs.ax = m.regs.ax ∧
        Overlays m.mem ((move movsb)^[k] m).mem m.regs.di k
          fun i => m.mem (m.regs.si + BitVec.ofNat 16 (i % (m.regs.di - m.regs.si).toNat)) := by
  induction k with
  | zero => exact ⟨by simp, by simp, rfl, Overlays.zero⟩
  | succ k ih =>
    obtain ⟨hsi, hdi, hax, hmem⟩ := ih (by omega)
    rw [Function.iterate_succ_apply']
    refine ⟨?_, ?_, hax, ?_⟩
    · change ((move movsb)^[k] m).regs.si + 1 = _
      rw [hsi]
      bv_omega
    · change ((move movsb)^[k] m).regs.di + 1 = _
      rw [hdi]
      bv_omega
    · change Overlays _ (Function.update _ ((move movsb)^[k] m).regs.di
        (((move movsb)^[k] m).mem ((move movsb)^[k] m).regs.si)) _ _ _
      rw [hdi, hsi, copied_next hk hmem]
      exact hmem.succ hk

/-- **Memory that is copied**: behind the distance of both of them, its bytes come again. -/
theorem repeated_movsb (m : Machine) :
    (repeated movsb m).regs.ax = m.regs.ax ∧
      Overlays m.mem (repeated movsb m).mem m.regs.di m.regs.cx.toNat
        fun i => m.mem (m.regs.si + BitVec.ofNat 16 (i % (m.regs.di - m.regs.si).toNat)) :=
  (movsb_iterate m m.regs.cx.isLt.le).2.2

end StringInstr

import I80k.Kernel.Word

/-!
# Masking interrupts

`boards/interrupts.c` on a controller that may have a second one wired to it, and the driver of the controllers.
Each controller has a mask register of eight lines, at its data port. A request is for the number of an interrupt;
the functions of the driver get a controller, and the number of a line of it.

The two functions that mask and unmask give the driver the first controller in both cases, and the number of
the interrupt itself for that one.

## Main definitions

* `Pic`, `Cascade`: the controllers
* `p8259aIrqEnable`, `p8259aIrqDisable`: the functions of the driver
* `Cascade.irqEnable`, `Cascade.irqDisable`: the functions of `interrupts.c`
* `Cascade.SetsOnly`: the bit of the interrupt is set, and nothing else changes
* `Cascade.NothingToDo`: there is nothing to change

## Main results

* `Cascade.irqSet_eq`: the bit that is written
* `irq_sets_own_bit_iff`: when it is the bit of the interrupt
-/

namespace I80k.Kernel

/-- `struct pic`: its port, and its interrupts from `irq_base` up to `irq_max`. -/
structure Pic where
  port : UInt16
  irqBase : Int16
  irqMax : Int16

/-- The mask registers, at the data ports. -/
abbrev PicMasks := UInt16 → BitVec 8

/-! ## The driver -/

/-- `PIC_DATA`. -/
def picData (p : Pic) : UInt16 := p.port + 1

/-- `uint8_t mask = 1 << irq`. An `int` has 16 bits, and is not shifted by a negative number, nor by more: no controller
has such a line, so nothing is said about it. The shifts of `page_buddy` do get there, and `oneShl` has the value that
the 8086 gives them. -/
def lineMask (irq : Int16) : Option (BitVec 8) :=
  if 0 ≤ irq ∧ irq < 16 then some (BitVec.ofNat 8 (1 <<< irq.toNatClampNeg)) else none

/-- The functions that read the mask register and write it back. -/
def p8259aUpdate (f : BitVec 8 → BitVec 8 → BitVec 8) (p : Pic) (irq : Int16) (io : PicMasks) : Option PicMasks :=
  (lineMask irq).map fun mask => Function.update io (picData p) (f (io (picData p)) mask)

/-- `p8259a_irq_enable`. -/
def p8259aIrqEnable : Pic → Int16 → PicMasks → Option PicMasks := p8259aUpdate fun value mask => value &&& ~~~mask

/-- `p8259a_irq_disable`. -/
def p8259aIrqDisable : Pic → Int16 → PicMasks → Option PicMasks := p8259aUpdate fun value mask => value ||| mask

/-! ## The controllers -/

/-- The controller `p`, and the one that is wired to it. -/
structure Cascade where
  p : Pic
  slave : Option Pic

namespace Cascade

variable (c : Cascade)

/-- The functions that call a function of the driver for an interrupt. -/
def select (f : Pic → Int16 → PicMasks → Option PicMasks) (irq : Int16) (io : PicMasks) : Option PicMasks :=
  if irq < 0 then some io
  else if irq < c.p.irqMax then f c.p irq io
  else
    match c.slave with
    | none => some io
    -- the line is one of the slave, and the controller is not
    | some slave => if irq < slave.irqMax then f c.p (irq - slave.irqBase) io else some io

/-- `irq_enable`. -/
def irqEnable : Int16 → PicMasks → Option PicMasks := c.select p8259aIrqEnable

/-- `irq_disable`. -/
def irqDisable : Int16 → PicMasks → Option PicMasks := c.select p8259aIrqDisable

/-- `irq_enable` clears a bit, and `irq_disable` sets one. -/
def irqSet (level : Bool) : Int16 → PicMasks → Option PicMasks := if level then c.irqDisable else c.irqEnable

end Cascade

/-- The interrupt is one of the controller. -/
def Pic.Owns (p : Pic) (irq : Int16) : Prop := p.irqBase ≤ irq ∧ irq < p.irqMax

instance (p : Pic) (irq : Int16) : Decidable (p.Owns irq) := inferInstanceAs (Decidable (_ ∧ _))

/-- The number of its line. -/
def Pic.line (p : Pic) (irq : Int16) : ℤ := irq.toInt - p.irqBase.toInt

namespace Cascade

variable (c : Cascade) (dev : Pic) (irq : Int16) (level : Bool) (io : PicMasks)

/-- Each controller has eight interrupts and a data port of its own, and the interrupts are not the same. -/
structure WellFormed : Prop where
  lines : c.p.irqMax.toInt = c.p.irqBase.toInt + 8
  slaveLines : ∀ s ∈ c.slave, s.irqMax.toInt = s.irqBase.toInt + 8
  disjoint : ∀ s ∈ c.slave, s.irqMax ≤ c.p.irqBase ∨ c.p.irqMax ≤ s.irqBase
  ports : ∀ s ∈ c.slave, picData s ≠ picData c.p

/-- The bit of the interrupt in the mask register of the controller is `level`, and every other bit of every mask
register is what it was. -/
def SetsOnly : Prop :=
  ∃ io', c.irqSet level irq io = some io' ∧ ∀ port, ∀ k < 8,
    (io' port).getLsbD k = if port = picData dev ∧ (k : ℤ) = dev.line irq then level else (io port).getLsbD k

/-- The line of the first controller that is written, for an interrupt of `dev`. -/
def written : ℤ := if irq < c.p.irqMax then irq.toInt else dev.line irq

/-- The bit of the interrupt is `level` before the call, and so is the bit that is written, if there is one. -/
def NothingToDo : Prop :=
  (io (picData dev)).getLsbD (dev.line irq).toNat = level ∧
    (0 ≤ irq → c.written dev irq < 16 ∧
      (c.written dev irq < 8 → (io (picData c.p)).getLsbD (c.written dev irq).toNat = level))

instance : Decidable (c.NothingToDo dev irq level io) := inferInstanceAs (Decidable (_ ∧ _))

end Cascade

/-! ## The bit that is written -/

/-- A bit of a mask. -/
theorem getLsbD_ofNat_shift (line k : ℕ) : (BitVec.ofNat 8 (1 <<< line)).getLsbD k = decide (k < 8 ∧ k = line) := by
  rw [BitVec.getLsbD_ofNat, Nat.shiftLeft_eq, one_mul, Nat.testBit_two_pow, ← Bool.decide_and]
  simp only [eq_comm]

theorem Pic.line_bounds {p : Pic} {irq : Int16} (hlines : p.irqMax.toInt = p.irqBase.toInt + 8) (h : p.Owns irq) :
    0 ≤ p.line irq ∧ p.line irq < 8 := by
  have hlo := Int16.le_iff_toInt_le.mp h.1
  have hhi := Int16.lt_iff_toInt_lt.mp h.2
  rw [Pic.line]
  omega

/-- The number of a line is the difference that is computed. -/
theorem Pic.toInt_sub {p : Pic} {irq : Int16} (hlines : p.irqMax.toInt = p.irqBase.toInt + 8) (h : p.Owns irq) :
    (irq - p.irqBase).toInt = p.line irq := by
  have hbounds := p.line_bounds hlines h
  rw [Pic.line] at hbounds ⊢
  rw [Int16.toInt_sub]
  exact Int.bmod_eq_of_le (by omega) (by omega)

/-- A write of a line of the controller. -/
theorem p8259a_eq {p : Pic} {irq : Int16} {line : ℕ} (hline : irq.toInt = line) (hlt : line < 16) (level : Bool)
    (io : PicMasks) :
    ∃ io', (if level then p8259aIrqDisable else p8259aIrqEnable) p irq io = some io' ∧
      ∀ port, ∀ k < 8, (io' port).getLsbD k = if port = picData p ∧ k = line then level else (io port).getLsbD k := by
  have hmask : lineMask irq = some (BitVec.ofNat 8 (1 <<< line)) := by
    have hnat : irq.toNatClampNeg = line := by
      rw [← Int16.toNat_toInt, hline, Int.toNat_natCast]
    have hshift : 0 ≤ irq ∧ irq < 16 := by
      rw [Int16.le_iff_toInt_le, Int16.lt_iff_toInt_lt, hline]
      exact ⟨Int.natCast_nonneg line, Int.ofNat_lt.mpr hlt⟩
    rw [lineMask, if_pos hshift, hnat]
  cases level with
  | false =>
    refine ⟨Function.update io (picData p) (io (picData p) &&& ~~~BitVec.ofNat 8 (1 <<< line)), ?_, ?_⟩
    · rw [if_neg Bool.false_ne_true, p8259aIrqEnable, p8259aUpdate, hmask, Option.map_some]
    · intro port k hk
      by_cases hport : port = picData p
      · subst hport
        rw [Function.update_self, BitVec.getLsbD_and, BitVec.getLsbD_not, getLsbD_ofNat_shift]
        by_cases hbit : k = line
        · simp [hbit]
        · simp [hbit, hk]
      · rw [Function.update_of_ne hport, if_neg fun h => hport h.1]
  | true =>
    refine ⟨Function.update io (picData p) (io (picData p) ||| BitVec.ofNat 8 (1 <<< line)), ?_, ?_⟩
    · rw [if_pos rfl, p8259aIrqDisable, p8259aUpdate, hmask, Option.map_some]
    · intro port k hk
      by_cases hport : port = picData p
      · subst hport
        rw [Function.update_self, BitVec.getLsbD_or, getLsbD_ofNat_shift]
        by_cases hbit : k = line
        · simp [hbit, hbit ▸ hk]
        · simp [hbit]
      · rw [Function.update_of_ne hport, if_neg fun h => hport h.1]

/-- A line that no shift is defined for. -/
theorem p8259a_eq_none {p : Pic} {irq : Int16} (hge : 16 ≤ irq.toInt) (level : Bool) (io : PicMasks) :
    (if level then p8259aIrqDisable else p8259aIrqEnable) p irq io = none := by
  have hmask : lineMask irq = none := by
    have hshift : ¬ (0 ≤ irq ∧ irq < 16) := by
      rintro ⟨-, hlt⟩
      exact absurd (Int16.lt_iff_toInt_lt.mp hlt) (not_lt.mpr hge)
    rw [lineMask, if_neg hshift]
  cases level with
  | false => rw [if_neg Bool.false_ne_true, p8259aIrqEnable, p8259aUpdate, hmask, Option.map_none]
  | true => rw [if_pos rfl, p8259aIrqDisable, p8259aUpdate, hmask, Option.map_none]

namespace Cascade

variable {c : Cascade} {dev : Pic} {irq : Int16}

theorem WellFormed.lines_of (hc : c.WellFormed) (hdev : dev = c.p ∨ c.slave = some dev) :
    dev.irqMax.toInt = dev.irqBase.toInt + 8 := by
  rcases hdev with rfl | hslave
  · exact hc.lines
  · exact hc.slaveLines dev hslave

/-- **The bit that is written** is one of the first controller. -/
theorem irqSet_eq (hc : c.WellFormed) (hdev : dev = c.p ∨ c.slave = some dev) (hirq : dev.Owns irq) (hpos : 0 ≤ irq)
    (level : Bool) (io : PicMasks) :
    ∃ line : Int16, line.toInt = c.written dev irq ∧
      c.irqSet level irq io = (if level then p8259aIrqDisable else p8259aIrqEnable) c.p line io := by
  have hselect : c.irqSet level irq io = c.select (if level then p8259aIrqDisable else p8259aIrqEnable) irq io := by
    cases level <;> rfl
  rw [hselect, select, if_neg (Int16.not_lt.mpr hpos), written]
  by_cases hlt : irq < c.p.irqMax
  · exact ⟨irq, by rw [if_pos hlt], by rw [if_pos hlt]⟩
  · -- the first controller does not have it, so it is one of the second
    have hslave : c.slave = some dev := by
      rcases hdev with rfl | hslave
      · exact absurd hirq.2 hlt
      · exact hslave
    refine ⟨irq - dev.irqBase, ?_, ?_⟩
    · rw [if_neg hlt, Pic.toInt_sub (hc.lines_of (.inr hslave)) hirq]
    · rw [if_neg hlt, hslave]
      exact if_pos hirq.2

/-- Where it is written to the line of the interrupt. -/
theorem written_eq_iff (hc : c.WellFormed) (hdev : dev = c.p ∨ c.slave = some dev) (hirq : dev.Owns irq) :
    picData dev = picData c.p ∧ c.written dev irq = dev.line irq ↔ dev = c.p ∧ c.p.irqBase = 0 := by
  constructor
  · rintro ⟨hport, hline⟩
    rcases hdev with rfl | hslave
    · rw [written, if_pos hirq.2, Pic.line] at hline
      have hzero : c.p.irqBase.toInt = (0 : Int16).toInt := by
        rw [Int16.toInt_zero]
        omega
      exact ⟨rfl, Int16.toInt_inj.mp hzero⟩
    · exact absurd hport (hc.ports dev hslave)
  · rintro ⟨rfl, hbase⟩
    refine ⟨rfl, ?_⟩
    rw [written, if_pos hirq.2, Pic.line, hbase, Int16.toInt_zero, sub_zero]

end Cascade

/-- Two bits that are set, of registers with eight bits: they are the same bit, or both were set before. -/
theorem sets_same_iff (bit : UInt16 → ℕ → Bool) (port port' : UInt16) {line : ℕ} (line' : ℕ) (level : Bool)
    (hline : line < 8) :
    (∀ q, ∀ k < 8, (if q = port' ∧ k = line' then level else bit q k) =
        if q = port ∧ k = line then level else bit q k) ↔
      port = port' ∧ line' = line ∨ bit port line = level ∧ (line' < 8 → bit port' line' = level) := by
  constructor
  · intro h
    by_cases hsame : port = port' ∧ line' = line
    · exact .inl hsame
    · have hfirst := h port line hline
      rw [if_neg fun heq => hsame ⟨heq.1, heq.2.symm⟩, if_pos ⟨rfl, rfl⟩] at hfirst
      refine .inr ⟨hfirst, fun hline' => ?_⟩
      have hsecond := h port' line' hline'
      rw [if_pos ⟨rfl, rfl⟩, if_neg fun heq => hsame ⟨heq.1.symm, heq.2⟩] at hsecond
      exact hsecond.symm
  · rintro (⟨rfl, rfl⟩ | ⟨hset, hset'⟩) q k hk
    · rfl
    · split_ifs with hq hq' hq'
      · rfl
      · obtain ⟨rfl, rfl⟩ := hq
        exact (hset' hk).symm
      · obtain ⟨rfl, rfl⟩ := hq'
        exact hset
      · rfl

namespace Cascade

variable {c : Cascade} {dev : Pic} {irq : Int16}

/-- A negative number is of no line of the first controller that counts them from 0. -/
theorem written_ne_of_neg (hc : c.WellFormed) (hdev : dev = c.p ∨ c.slave = some dev) (hirq : dev.Owns irq)
    (hneg : irq.toInt < 0) : ¬ (picData dev = picData c.p ∧ c.written dev irq = dev.line irq) := by
  have hlo := (Pic.line_bounds (hc.lines_of hdev) hirq).1
  rw [written_eq_iff hc hdev hirq]
  rintro ⟨rfl, hbase⟩
  rw [Pic.line, hbase, Int16.toInt_zero] at hlo
  omega

/-- The line that is written is not negative if the interrupt is not. -/
theorem written_nonneg (hc : c.WellFormed) (hdev : dev = c.p ∨ c.slave = some dev) (hirq : dev.Owns irq)
    (hpos : 0 ≤ irq.toInt) : 0 ≤ c.written dev irq := by
  rw [written]
  split_ifs
  · exact hpos
  · exact (Pic.line_bounds (hc.lines_of hdev) hirq).1

variable {line : ℕ} {level : Bool} {io : PicMasks}

/-- A negative number: the call returns at once. -/
theorem setsOnly_iff_of_neg (hneg : irq.toInt < 0) (hline : dev.line irq = line) (hline8 : line < 8) :
    c.SetsOnly dev irq level io ↔ c.NothingToDo dev irq level io := by
  have hneg' : irq < 0 := Int16.lt_iff_toInt_lt.mpr hneg
  have hnot : ¬ 0 ≤ irq := Int16.not_le.mpr hneg'
  have hstays : c.irqSet level irq io = some io := by
    cases level <;> exact if_pos hneg'
  simp only [SetsOnly, NothingToDo, hline, Int.toNat_natCast, Nat.cast_inj, hstays, Option.some.injEq,
    exists_eq_left', hnot, false_imp_iff, and_true]
  constructor
  · intro h
    have hbit := h (picData dev) line hline8
    rwa [if_pos ⟨rfl, rfl⟩] at hbit
  · intro hbit port k hk
    split_ifs with hq
    · rw [hq.1, hq.2, hbit]
    · rfl

/-- A line that is written: its bit and that of the interrupt are compared. -/
theorem setsOnly_iff_of_written (hc : c.WellFormed) (hdev : dev = c.p ∨ c.slave = some dev) (hirq : dev.Owns irq)
    (hpos : 0 ≤ irq) (hline : dev.line irq = line) (hline8 : line < 8) {line' : ℕ}
    (hwritten : c.written dev irq = line') (hlt : line' < 16) :
    c.SetsOnly dev irq level io ↔
      picData dev = picData c.p ∧ line' = line ∨ c.NothingToDo dev irq level io := by
  obtain ⟨arg, harg, hset⟩ := irqSet_eq hc hdev hirq hpos level io
  obtain ⟨io', hio', hbits⟩ := p8259a_eq (p := c.p) (harg.trans hwritten) hlt level io
  have hsame := sets_same_iff (fun port => (io port).getLsbD) (picData dev) (picData c.p) line' level hline8
  have hlt' : (line' : ℤ) < 16 := Int.ofNat_lt.mpr hlt
  have hcast : (line' : ℤ) < 8 ↔ line' < 8 := by norm_cast
  simp only [SetsOnly, NothingToDo, hset, hio', hline, hwritten, Option.some.injEq, exists_eq_left', hpos, hlt', hcast,
    true_and, forall_const, Int.toNat_natCast, Nat.cast_inj]
  rw [← hsame]
  apply forall_congr'
  intro port
  apply forall₂_congr
  intro k hk
  rw [hbits port k hk]

/-- A line that no shift is defined for. -/
theorem not_setsOnly_of_written (hc : c.WellFormed) (hdev : dev = c.p ∨ c.slave = some dev) (hirq : dev.Owns irq)
    (hpos : 0 ≤ irq) (hge : 16 ≤ c.written dev irq) : ¬ c.SetsOnly dev irq level io := by
  obtain ⟨arg, harg, hset⟩ := irqSet_eq hc hdev hirq hpos level io
  rw [SetsOnly, hset, p8259a_eq_none (harg ▸ hge)]
  rintro ⟨io', hnone, -⟩
  cases hnone

end Cascade

/-- **The interrupt that is masked or unmasked, exactly.** For controllers with eight interrupts each, any masks
and any interrupt of one of them: `irq_enable` clears and `irq_disable` sets its bit, and no other bit changes, if
and only if it is an interrupt of the first controller and that counts them from 0, or there is nothing to
change. -/
theorem irq_sets_own_bit_iff (c : Cascade) (hc : c.WellFormed) (dev : Pic) (hdev : dev = c.p ∨ c.slave = some dev)
    (irq : Int16) (hirq : dev.Owns irq) (level : Bool) (io : PicMasks) :
    c.SetsOnly dev irq level io ↔ dev = c.p ∧ c.p.irqBase = 0 ∨ c.NothingToDo dev irq level io := by
  obtain ⟨hlo, hhi⟩ := Pic.line_bounds (hc.lines_of hdev) hirq
  obtain ⟨line, hline⟩ := Int.eq_ofNat_of_zero_le hlo
  have hline8 : line < 8 := by omega
  rw [← Cascade.written_eq_iff hc hdev hirq]
  rcases lt_or_ge irq.toInt 0 with hneg | hpos
  · rw [Cascade.setsOnly_iff_of_neg hneg hline hline8]
    exact (or_iff_right (Cascade.written_ne_of_neg hc hdev hirq hneg)).symm
  · have hpos' : 0 ≤ irq := Int16.le_iff_toInt_le.mpr hpos
    obtain ⟨line', hwritten⟩ := Int.eq_ofNat_of_zero_le (Cascade.written_nonneg hc hdev hirq hpos)
    rcases Nat.lt_or_ge line' 16 with hlt | hge
    · rw [Cascade.setsOnly_iff_of_written hc hdev hirq hpos' hline hline8 hwritten hlt, hwritten, hline, Nat.cast_inj]
    · -- the shift has no value, and the line is not one of eight
      have hge' : 16 ≤ c.written dev irq := by omega
      apply iff_of_false (Cascade.not_setsOnly_of_written hc hdev hirq hpos' hge')
      rintro (⟨-, hsame⟩ | ⟨-, hbound⟩)
      · omega
      · exact absurd (hbound hpos').1 (not_lt.mpr hge')

/-- The vboard: two controllers, the second one at the interrupts from 8 on. -/
def vboardCascade : Cascade := ⟨⟨0x20, 0, 8⟩, some ⟨0xA0, 8, 16⟩⟩

theorem wellFormed_vboard : vboardCascade.WellFormed where
  lines := rfl
  slaveLines := by
    rintro _ ⟨⟩
    rfl
  disjoint := by
    rintro _ ⟨⟩
    exact .inr (by decide)
  ports := by
    rintro _ ⟨⟩
    decide

/-- The interrupt of the UART is unmasked. -/
theorem irq_sets_own_bit_uart : vboardCascade.SetsOnly ⟨0x20, 0, 8⟩ 4 false fun _ => 0xFF :=
  (irq_sets_own_bit_iff vboardCascade wellFormed_vboard ⟨0x20, 0, 8⟩ (.inl rfl) 4 (by decide) false fun _ => 0xFF).mpr
    (.inl ⟨rfl, rfl⟩)

/-- An interrupt of the second controller is unmasked: the bit of the first one is cleared. -/
theorem not_setsOnly_second :
    vboardCascade.slave = some ⟨0xA0, 8, 16⟩ ∧
      (vboardCascade.irqEnable 14 fun _ => 0xFF).map (fun io => (io 0x21, io 0xA1)) = some (0xBF, 0xFF) ∧
      ¬ vboardCascade.SetsOnly ⟨0xA0, 8, 16⟩ 14 false fun _ => 0xFF := by
  refine ⟨rfl, by decide, ?_⟩
  rintro ⟨io', henable, hbits⟩
  have hsome : (vboardCascade.irqSet false 14 fun _ => 0xFF).map (fun io => (io 0xA1).getLsbD 6) = some true := by
    decide
  rw [henable, Option.map_some, hbits 0xA1 6 (by norm_num)] at hsome
  exact absurd hsome (by decide)

end I80k.Kernel

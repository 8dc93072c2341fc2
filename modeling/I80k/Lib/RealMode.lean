import Mathlib

/-!
# A real-mode machine with a stack

Registers of 16 bits, a physical memory of `2 ^ 20` bytes reached through segments, and the part of the
8086 instruction set that saves and restores registers: pushes, pops and moves between registers and
memory. A routine is the list of its instructions; the position in the list stands for the instruction
pointer until a `ret` loads it from the stack.

A word is two bytes with the low byte first, and the offset of the second one wraps in the segment. Only
nine flags exist: `popf` loads these and ignores the other bits, which `pushf` stores with fixed values.

## Main definitions

* `phys`, `readWord`, `writeWord`: memory through a segment
* `Region`: a range of offsets that does not wrap, with `Region.Apart`
* `Holds m seg off ws`: the words `ws` in memory from `off` on
* `Machine`, `Instr`, `exec`: the machine and its instructions

## Main results

* `Keeps.readWord`, `Holds.keep`: what holds in a region holds after writes elsewhere
* `Holds.push`, `Holds.read`: the words on a stack
-/

namespace RealMode

abbrev Word := BitVec 16

abbrev Byte := BitVec 8

abbrev Addr := BitVec 20

abbrev Memory := Addr → Byte

/-! ## Memory -/

/-- The physical address of an offset in a segment. -/
def phys (seg off : Word) : Addr := (seg.setWidth 20 <<< 4) + off.setWidth 20

def readWord (m : Memory) (seg off : Word) : Word := m (phys seg (off + 1)) ++ m (phys seg off)

def writeByte (m : Memory) (a : Addr) (b : Byte) : Memory := Function.update m a b

def writeWord (m : Memory) (seg off v : Word) : Memory :=
  writeByte (writeByte m (phys seg off) (v.setWidth 8)) (phys seg (off + 1)) ((v >>> 8).setWidth 8)

/-- In one segment two offsets are two addresses. -/
theorem phys_inj {seg off off' : Word} (h : phys seg off = phys seg off') : off = off' := by
  unfold phys at h
  bv_omega

theorem writeByte_of_ne {m : Memory} {a a' : Addr} (b : Byte) (h : a' ≠ a) : writeByte m a b a' = m a' := by
  unfold writeByte
  exact Function.update_of_ne h b m

theorem writeWord_of_ne {m : Memory} {seg off off' : Word} (v : Word) (h : off' ≠ off) (h' : off' ≠ off + 1) :
    writeWord m seg off v (phys seg off') = m (phys seg off') := by
  unfold writeWord
  rw [writeByte_of_ne _ (fun e => h' (phys_inj e)), writeByte_of_ne _ (fun e => h (phys_inj e))]

theorem readWord_writeWord (m : Memory) (seg off v : Word) :
    readWord (writeWord m seg off v) seg off = v := by
  have hne : phys seg off ≠ phys seg (off + 1) := by
    intro e
    have := phys_inj e
    bv_omega
  unfold readWord writeWord writeByte
  rw [Function.update_self, Function.update_of_ne hne, Function.update_self]
  ext i hi
  rw [BitVec.getElem_append]
  split
  · simp [BitVec.getLsbD_eq_getElem hi]
  · have hi' : i - 8 + 8 = i := by omega
    simp [Nat.add_comm 8, hi', BitVec.getLsbD_eq_getElem hi]

theorem readWord_writeWord_of_ne (m : Memory) (seg : Word) {off off' : Word} (v : Word) (h : off' ≠ off)
    (hlo : off' ≠ off + 1) (hhi : off' + 1 ≠ off) :
    readWord (writeWord m seg off v) seg off' = readWord m seg off' := by
  have hne : off' + 1 ≠ off + 1 := by bv_omega
  rw [readWord, readWord, writeWord_of_ne v hhi hne, writeWord_of_ne v h hlo]

/-! ## Regions -/

/-- A range of `n` offsets that ends inside the segment. -/
structure Region where
  lo : Word
  n : ℕ
  fits : lo.toNat + n ≤ 2 ^ 16

namespace Region

instance : Membership Word Region := ⟨fun r off => r.lo.toNat ≤ off.toNat ∧ off.toNat < r.lo.toNat + r.n⟩

theorem mem_iff {r : Region} {off : Word} :
    off ∈ r ↔ r.lo.toNat ≤ off.toNat ∧ off.toNat < r.lo.toNat + r.n := Iff.rfl

/-- Two regions with no offset in common, as ranges. -/
def Apart (r s : Region) : Prop := r.lo.toNat + r.n ≤ s.lo.toNat ∨ s.lo.toNat + s.n ≤ r.lo.toNat

instance (r s : Region) : Decidable (r.Apart s) := inferInstanceAs (Decidable (_ ∨ _))

theorem Apart.symm {r s : Region} (h : r.Apart s) : s.Apart r := Or.symm h

theorem Apart.not_mem {r s : Region} (h : r.Apart s) {off : Word} (hr : off ∈ r) : off ∉ s := by
  rw [mem_iff] at hr ⊢
  unfold Apart at h
  omega

/-- The physical address `a` belongs to the region. -/
def Covers (seg : Word) (r : Region) (a : Addr) : Prop := ∃ i < r.n, phys seg (r.lo + BitVec.ofNat 16 i) = a

instance (seg : Word) (r : Region) (a : Addr) : Decidable (r.Covers seg a) :=
  inferInstanceAs (Decidable (∃ i < r.n, _))

theorem covers_of_mem {r : Region} {off : Word} (h : off ∈ r) (seg : Word) : r.Covers seg (phys seg off) := by
  have hfits := r.fits
  rw [mem_iff] at h
  refine ⟨off.toNat - r.lo.toNat, by omega, ?_⟩
  congr 1
  bv_omega

end Region

/-- The bytes of `m'` at the offsets of a region are those of `m`. -/
def Keeps (seg : Word) (r : Region) (m m' : Memory) : Prop := ∀ off ∈ r, m' (phys seg off) = m (phys seg off)

namespace Keeps

variable {seg : Word} {r : Region} {m m' m'' : Memory}

theorem refl (seg : Word) (r : Region) (m : Memory) : Keeps seg r m m := fun _ _ => rfl

theorem trans (h : Keeps seg r m m') (h' : Keeps seg r m' m'') : Keeps seg r m m'' :=
  fun off hoff => (h' off hoff).trans (h off hoff)

theorem readWord (h : Keeps seg r m m') {off : Word} (hlo : off ∈ r) (hhi : off + 1 ∈ r) :
    readWord m' seg off = RealMode.readWord m seg off := by
  rw [RealMode.readWord, RealMode.readWord, h off hlo, h _ hhi]

theorem writeWord (h : Keeps seg r m m') {off v : Word} (hlo : off ∉ r) (hhi : off + 1 ∉ r) :
    Keeps seg r m (writeWord m' seg off v) := by
  intro o ho
  have hne : o ≠ off := fun e => hlo (e ▸ ho)
  have hne' : o ≠ off + 1 := fun e => hhi (e ▸ ho)
  rw [writeWord_of_ne v hne hne']
  exact h o ho

/-- Bytes written outside the region. -/
theorem writeBytes (h : Keeps seg r m m') {writes : List (Addr × Byte)}
    (hout : ∀ p ∈ writes, ¬ r.Covers seg p.1) :
    Keeps seg r m (writes.foldl (fun m p => writeByte m p.1 p.2) m') := by
  induction writes generalizing m' with
  | nil => exact h
  | cons p writes ih =>
    apply ih
    · intro off hoff
      have hne : phys seg off ≠ p.1 := by
        intro e
        exact hout p List.mem_cons_self (e ▸ Region.covers_of_mem hoff seg)
      exact (writeByte_of_ne p.2 hne).trans (h off hoff)
    · exact fun q hq => hout q (List.mem_cons_of_mem _ hq)

end Keeps

/-! ## Words in memory -/

/-- The words `ws` stand in memory one after the other from `off` on. -/
def Holds (m : Memory) (seg : Word) : Word → List Word → Prop
  | _, [] => True
  | off, w :: ws => readWord m seg off = w ∧ Holds m seg (off + 2) ws

@[simp] theorem holds_nil {m : Memory} {seg off : Word} : Holds m seg off [] := trivial

@[simp] theorem holds_cons {m : Memory} {seg off w : Word} {ws : List Word} :
    Holds m seg off (w :: ws) ↔ readWord m seg off = w ∧ Holds m seg (off + 2) ws := Iff.rfl

theorem Holds.of_append {m : Memory} {seg off : Word} {ws vs : List Word} (h : Holds m seg off (ws ++ vs)) :
    Holds m seg off ws := by
  induction ws generalizing off with
  | nil => exact trivial
  | cons w ws ih => exact ⟨h.1, ih h.2⟩

/-- The word at a position. -/
theorem Holds.read {m : Memory} {seg off w : Word} {ws : List Word} {i : ℕ} (h : Holds m seg off ws)
    (hi : ws[i]? = some w) : readWord m seg (off + BitVec.ofNat 16 (2 * i)) = w := by
  induction ws generalizing off i with
  | nil => simp at hi
  | cons v ws ih =>
    cases i with
    | zero => simpa [h.1] using hi
    | succ i =>
      have hoff : off + BitVec.ofNat 16 (2 * (i + 1)) = off + 2 + BitVec.ofNat 16 (2 * i) := by bv_omega
      rw [hoff]
      exact ih h.2 (by simpa using hi)

/-- Words inside a region stay when the region does. -/
theorem Holds.keep {m m' : Memory} {seg off : Word} {r : Region} {ws : List Word} (hk : Keeps seg r m m')
    (hlo : r.lo.toNat ≤ off.toNat) (hhi : off.toNat + 2 * ws.length ≤ r.lo.toNat + r.n)
    (h : Holds m seg off ws) : Holds m' seg off ws := by
  have hfits := r.fits
  induction ws generalizing off with
  | nil => exact trivial
  | cons w ws ih =>
    rw [List.length_cons] at hhi
    obtain ⟨hw, hws⟩ := h
    refine ⟨?_, ?_⟩
    · rw [hk.readWord (Region.mem_iff.mpr (by omega)) (Region.mem_iff.mpr (by bv_omega)), hw]
    · cases ws with
      | nil => exact trivial
      | cons w' ws =>
        -- a further word ends in the region, so the next offset has not wrapped
        rw [List.length_cons] at hhi
        refine ih ?_ ?_ hws
        · bv_omega
        · rw [List.length_cons]
          bv_omega

/-- A word written right below the others. -/
theorem Holds.push {m : Memory} {seg off : Word} {ws : List Word} (w : Word) (hlo : 2 ≤ off.toNat)
    (hhi : off.toNat + 2 * ws.length ≤ 2 ^ 16) (h : Holds m seg off ws) :
    Holds (writeWord m seg (off - 2) w) seg (off - 2) (w :: ws) := by
  refine ⟨readWord_writeWord _ _ _ _, ?_⟩
  rw [BitVec.sub_add_cancel]
  have hk : Keeps seg ⟨off, 2 * ws.length, hhi⟩ m (writeWord m seg (off - 2) w) := by
    refine (Keeps.refl seg _ m).writeWord ?_ ?_
    · rw [Region.mem_iff]
      dsimp only
      bv_omega
    · rw [Region.mem_iff]
      dsimp only
      bv_omega
  exact h.keep hk le_rfl le_rfl

/-! ## The machine -/

/-- The registers that instructions name. -/
inductive Reg
  | ax | bx | cx | dx | si | di | bp | sp | ds | es | ss
  deriving DecidableEq

/-- The nine flags that exist. -/
def flagBits : Word := 0x0FD5

/-- What the other bits read as. -/
def fixedBits : Word := 0xF002

/-- The flags register holds no other bit. -/
abbrev Flags := {w : Word // w &&& flagBits = w}

/-- The flags in a word of the stack. -/
def Flags.ofWord (w : Word) : Flags :=
  ⟨w &&& flagBits, by rw [BitVec.and_assoc, BitVec.and_self]⟩

/-- The flags as `pushf` stores them. -/
def Flags.toWord (f : Flags) : Word := f.1 ||| fixedBits

theorem Flags.ofWord_toWord (f : Flags) : Flags.ofWord f.toWord = f := by
  apply Subtype.ext
  have hfixed : fixedBits &&& flagBits = 0#16 := by decide
  show (f.1 ||| fixedBits) &&& flagBits = f.1
  rw [BitVec.and_or_distrib_right, hfixed, BitVec.or_zero, f.2]

/-- The interrupt flag. -/
def Flags.interrupts (f : Flags) : Bool := f.1.getLsbD 9

structure Machine where
  regs : Reg → Word
  flags : Flags
  ip : Word
  mem : Memory

namespace Machine

def set (m : Machine) (r : Reg) (v : Word) : Machine := { m with regs := Function.update m.regs r v }

def pushWord (m : Machine) (v : Word) : Machine :=
  { m with
    regs := Function.update m.regs .sp (m.regs .sp - 2)
    mem := writeWord m.mem (m.regs .ss) (m.regs .sp - 2) v }

/-- The word on the top of the stack. -/
def top (m : Machine) : Word := readWord m.mem (m.regs .ss) (m.regs .sp)

def drop (m : Machine) : Machine := m.set .sp (m.regs .sp + 2)

/-- A near call of the routine at the return address `ret`. -/
def call (m : Machine) (ret : Word) : Machine := m.pushWord ret

end Machine

/-- The instructions; the operands are in the order of the assembler, source first. -/
inductive Instr
  | push (r : Reg)
  | pop (r : Reg)
  | pushf
  | popf
  | mov (src dst : Reg)
  | load (disp : Word) (base dst : Reg)
  | store (src : Reg) (disp : Word) (base : Reg)
  | ret

/-- The segment register of a memory operand. -/
def segOf : Reg → Reg
  | .bp => .ss
  | _ => .ds

/-- One instruction. A push of `sp` stores the decremented value, as on the 8086. -/
def exec (m : Machine) : Instr → Machine
  | .push r => m.pushWord (Function.update m.regs .sp (m.regs .sp - 2) r)
  | .pop r => m.drop.set r m.top
  | .pushf => m.pushWord m.flags.toWord
  | .popf => { m.drop with flags := Flags.ofWord m.top }
  | .mov src dst => m.set dst (m.regs src)
  | .load disp base dst => m.set dst (readWord m.mem (m.regs (segOf base)) (m.regs base + disp))
  | .store src disp base =>
    { m with mem := writeWord m.mem (m.regs (segOf base)) (m.regs base + disp) (m.regs src) }
  | .ret => { m.drop with ip := m.top }

/-- A routine, from its first instruction to the last of the list. -/
def execAll (m : Machine) (prog : List Instr) : Machine := prog.foldl exec m

theorem execAll_append (m : Machine) (p q : List Instr) : execAll m (p ++ q) = execAll (execAll m p) q :=
  List.foldl_append

/-- The words on the stack of a machine, from the top on. -/
def Machine.Stack (m : Machine) (ws : List Word) : Prop := Holds m.mem (m.regs .ss) (m.regs .sp) ws

/-- A push with room below. -/
theorem Machine.Stack.push {m : Machine} {ws : List Word} (w : Word) (hlo : 2 ≤ (m.regs .sp).toNat)
    (hhi : (m.regs .sp).toNat + 2 * ws.length ≤ 2 ^ 16) (h : m.Stack ws) :
    (m.pushWord w).Stack (w :: ws) := by
  have hs := Holds.push w hlo hhi h
  simpa [Machine.Stack, Machine.pushWord] using hs

/-- Several pushes, the first word of the list first. -/
def Machine.pushAll (m : Machine) (ws : List Word) : Machine := ws.foldl Machine.pushWord m

theorem Machine.pushAll_sp (m : Machine) (ws : List Word) :
    (m.pushAll ws).regs .sp = m.regs .sp - BitVec.ofNat 16 (2 * ws.length) := by
  induction ws generalizing m with
  | nil => simp [Machine.pushAll]
  | cons w ws ih =>
    rw [Machine.pushAll, List.foldl_cons, ← Machine.pushAll, ih, List.length_cons]
    simp only [Machine.pushWord, Function.update_self]
    bv_omega

theorem Machine.pushAll_regs (m : Machine) (ws : List Word) {r : Reg} (hr : r ≠ .sp) :
    (m.pushAll ws).regs r = m.regs r := by
  induction ws generalizing m with
  | nil => rfl
  | cons w ws ih =>
    rw [Machine.pushAll, List.foldl_cons, ← Machine.pushAll, ih]
    exact Function.update_of_ne hr _ _

/-- With room for all of them the words stand on the stack, the last one on its top. -/
theorem Machine.Stack.pushAll {m : Machine} {old : List Word} (ws : List Word)
    (hlo : 2 * ws.length ≤ (m.regs .sp).toNat) (hhi : (m.regs .sp).toNat + 2 * old.length ≤ 2 ^ 16)
    (h : m.Stack old) : (m.pushAll ws).Stack (ws.reverse ++ old) := by
  induction ws generalizing m old with
  | nil => exact h
  | cons w ws ih =>
    rw [List.length_cons] at hlo
    have hsp : ((m.pushWord w).regs .sp).toNat = (m.regs .sp).toNat - 2 := by
      simp only [Machine.pushWord, Function.update_self]
      bv_omega
    have hw : (m.pushWord w).Stack (w :: old) := h.push w (by omega) hhi
    have hws := ih (by omega) (by rw [List.length_cons]; omega) hw
    rwa [List.reverse_cons, List.append_assoc]

/-- Pushes write below the stack pointer only, and no further than their room. -/
theorem Machine.pushAll_keeps (m : Machine) (ws : List Word) (hlo : 2 * ws.length ≤ (m.regs .sp).toNat)
    {r : Region}
    (hr : ∀ off ∈ r, off.toNat + 2 * ws.length < (m.regs .sp).toNat ∨ (m.regs .sp).toNat ≤ off.toNat) :
    Keeps (m.regs .ss) r m.mem (m.pushAll ws).mem := by
  induction ws generalizing m with
  | nil => exact Keeps.refl _ _ _
  | cons w ws ih =>
    rw [List.length_cons] at hlo hr
    have hsp : ((m.pushWord w).regs .sp).toNat = (m.regs .sp).toNat - 2 := by
      simp only [Machine.pushWord, Function.update_self]
      bv_omega
    have hss : (m.pushWord w).regs .ss = m.regs .ss := by simp [Machine.pushWord]
    have hfirst : Keeps (m.regs .ss) r m.mem (m.pushWord w).mem := by
      apply (Keeps.refl _ _ _).writeWord
      · intro hmem
        have := hr _ hmem
        bv_omega
      · intro hmem
        have := hr _ hmem
        bv_omega
    have hrest := ih (m.pushWord w) (by omega) (by
      intro off hoff
      have := hr off hoff
      omega)
    rw [hss] at hrest
    exact hfirst.trans hrest

end RealMode

import I80k.Kernel.Heap

/-!
# Moves of the break

`sbrk` of `brk.c` computes the end that it asks for modulo `2 ^ 16`, and the checks are on the other side
of the system call: `heap_brk` compares the end with the bounds of the heap, and takes the null address for
a question. So an end that wraps around into the heap is granted, and an end at 0 moves nothing while
`sbrk` reports success. Every other call moves the break by exactly its increment, or fails and moves
nothing.

## Main definitions

* `SbrkOk`: what a call of `sbrk` promises
* `NoWrap`: the end of a call is null only for an increment of 0, and inside the heap only if it did not
  wrap around
* `BreakInv`: `brk.c` and `heap.c` agree on the break, and it lies within its bounds

## Main results

* `sbrk_exact_iff`: along every sequence of calls, the promise is kept by all of them if and only if none
  wraps around into the heap or to 0
-/

namespace I80k.Kernel

open Libc StepSystem

/-- One call of `sbrk`; it always returns. -/
def sbrkStep (s : Image) (increment : Word) : Option Image :=
  some (sbrk s increment).1

/-- The promise of `sbrk(increment)` in a heap from `start` to `limit`: afterwards both sides of the system
call know the same break, inside the heap; and the call returned `(void *)-1` and moved nothing, or it
returned the previous break and moved it by exactly `increment`. In its first call `brk.c` learns the
break, whatever the call returns. -/
structure SbrkOk (start limit : Word) (s : Image) (increment : Word) : Prop where
  lib_eq : (sbrk s increment).1.brk.libBrk = (sbrk s increment).1.heap
  start_le : start ≤ (sbrk s increment).1.heap
  le_limit : (sbrk s increment).1.heap ≤ limit
  moved : ((sbrk s increment).2 = -1 ∧ (sbrk s increment).1.heap = s.heap ∧
      (s.brk.libBrk ≠ 0 → (sbrk s increment).1.brk.libBrk = s.brk.libBrk)) ∨
    ((sbrk s increment).2 = s.heap ∧
      ((sbrk s increment).1.heap.toNat : ℤ) = s.heap.toNat + increment.toInt)

/-- The end of the call is null only if nothing is asked for, and if it lies in the heap it is the exact
sum. -/
def NoWrap (start limit : Word) (s : Image) (increment : Word) : Prop :=
  (s.heap + increment = 0 → increment = 0) ∧
    (start ≤ s.heap + increment ∧ s.heap + increment ≤ limit →
      0 ≤ (s.heap.toNat : ℤ) + increment.toInt ∧ (s.heap.toNat : ℤ) + increment.toInt < 2 ^ 16)

/-- What every call keeps: the bounds, a break within them, and what `brk.c` knows of it. -/
structure BreakInv (start limit : Word) (s : Image) : Prop where
  heapBase : s.brk.heapBase = start
  heapMax : s.brk.heapMax = limit
  lib : s.brk.libBrk = 0 ∨ s.brk.libBrk = s.heap
  start_le : start ≤ s.heap
  le_limit : s.heap ≤ limit

/-! ## One call -/

/-- The sum as an integer, when the 16-bit address did not wrap around. -/
theorem toNat_add_toInt (a b : Word) (h₀ : 0 ≤ (a.toNat : ℤ) + b.toInt)
    (h₁ : (a.toNat : ℤ) + b.toInt < 2 ^ 16) : ((a + b).toNat : ℤ) = a.toNat + b.toInt := by
  have hb := BitVec.toInt_eq_toNat_cond b
  have ha := a.isLt
  have hlt := b.isLt
  rw [BitVec.toNat_add]
  split_ifs at hb <;> omega

namespace BreakInv

variable {start limit : Word} {s : Image}

theorem initBrk_eq (h : BreakInv start limit s) :
    initBrk s = { s with brk := ⟨s.heap, start, limit⟩ } := by
  have hbrk : s.brk = ⟨s.brk.libBrk, start, limit⟩ := by
    rw [← h.heapBase, ← h.heapMax]
  rw [initBrk]
  split_ifs with h₀
  · rw [heapBrk, if_pos rfl, hbrk]
  · rcases h.lib with hz | hz
    · exact absurd hz h₀
    · rw [← hz, ← hbrk, hz]

theorem heap_ne (h : BreakInv start limit s) (hl : limit < 0xFFFF) : s.heap ≠ -1 := by
  intro he
  have hle := h.le_limit
  rw [he, BitVec.le_def] at hle
  rw [BitVec.lt_def] at hl
  have h₁ : (-1 : Word).toNat = 0xFFFF := rfl
  have h₂ : (0xFFFF : Word).toNat = 0xFFFF := rfl
  omega

/-- An end at 0 is taken for a question: nothing moves, and the call succeeds. -/
theorem sbrk_null (h : BreakInv start limit s) (hl : limit < 0xFFFF) {increment : Word}
    (h₀ : s.heap + increment = 0) :
    sbrk s increment = ({ s with brk := ⟨s.heap, start, limit⟩ }, s.heap) := by
  have hz : ¬ s.heap < 0 := by
    rw [BitVec.lt_def]
    exact Nat.not_lt_zero _
  simp only [sbrk, h.initBrk_eq, h₀, heapBrk, if_true, if_neg (h.heap_ne hl), if_neg hz]

/-- An end inside the heap is granted, whatever the increment was. -/
theorem sbrk_inside (h : BreakInv start limit s) (hl : limit < 0xFFFF) {increment : Word}
    (h₀ : s.heap + increment ≠ 0) (hlo : start ≤ s.heap + increment) (hhi : s.heap + increment ≤ limit) :
    sbrk s increment =
      ({ s with heap := s.heap + increment, brk := ⟨s.heap + increment, start, limit⟩ }, s.heap) := by
  have hin : ¬ (s.heap + increment < start ∨ limit < s.heap + increment) := by
    rw [BitVec.le_def] at hlo hhi
    rw [BitVec.lt_def, BitVec.lt_def]
    omega
  have hne : s.heap + increment ≠ -1 := by
    intro he
    rw [he, BitVec.le_def] at hhi
    rw [BitVec.lt_def] at hl
    have h₁ : (-1 : Word).toNat = 0xFFFF := rfl
    have h₂ : (0xFFFF : Word).toNat = 0xFFFF := rfl
    omega
  simp only [sbrk, h.initBrk_eq, heapBrk, if_neg h₀, if_neg hin, if_neg hne,
    if_neg (BitVec.lt_irrefl _)]

/-- Every other end is refused. -/
theorem sbrk_outside (h : BreakInv start limit s) {increment : Word} (h₀ : s.heap + increment ≠ 0)
    (hout : ¬ (start ≤ s.heap + increment ∧ s.heap + increment ≤ limit)) :
    sbrk s increment = ({ s with brk := ⟨s.heap, start, limit⟩ }, -1) := by
  have hout' : s.heap + increment < start ∨ limit < s.heap + increment := by
    rw [BitVec.le_def, BitVec.le_def] at hout
    rw [BitVec.lt_def, BitVec.lt_def]
    omega
  simp only [sbrk, h.initBrk_eq, heapBrk, if_neg h₀, if_pos hout', if_true]

/-- The three outcomes of a call. -/
theorem sbrk_cases (h : BreakInv start limit s) (hl : limit < 0xFFFF) (increment : Word) :
    (s.heap + increment = 0 ∧ sbrk s increment = ({ s with brk := ⟨s.heap, start, limit⟩ }, s.heap)) ∨
    (s.heap + increment ≠ 0 ∧ (start ≤ s.heap + increment ∧ s.heap + increment ≤ limit) ∧
      sbrk s increment =
        ({ s with heap := s.heap + increment, brk := ⟨s.heap + increment, start, limit⟩ }, s.heap)) ∨
    (s.heap + increment ≠ 0 ∧ ¬ (start ≤ s.heap + increment ∧ s.heap + increment ≤ limit) ∧
      sbrk s increment = ({ s with brk := ⟨s.heap, start, limit⟩ }, -1)) := by
  by_cases h₀ : s.heap + increment = 0
  · exact Or.inl ⟨h₀, h.sbrk_null hl h₀⟩
  · by_cases hin : start ≤ s.heap + increment ∧ s.heap + increment ≤ limit
    · exact Or.inr (Or.inl ⟨h₀, hin, h.sbrk_inside hl h₀ hin.1 hin.2⟩)
    · exact Or.inr (Or.inr ⟨h₀, hin, h.sbrk_outside h₀ hin⟩)

/-- Every call keeps the invariant, the ones that wrap around included. -/
theorem sbrk (h : BreakInv start limit s) (hl : limit < 0xFFFF) (increment : Word) :
    BreakInv start limit (Kernel.sbrk s increment).1 := by
  rcases h.sbrk_cases hl increment with ⟨-, hs⟩ | ⟨-, hin, hs⟩ | ⟨-, -, hs⟩
  · rw [hs]
    exact ⟨rfl, rfl, Or.inr rfl, h.start_le, h.le_limit⟩
  · rw [hs]
    exact ⟨rfl, rfl, Or.inr rfl, hin.1, hin.2⟩
  · rw [hs]
    exact ⟨rfl, rfl, Or.inr rfl, h.start_le, h.le_limit⟩

/-- A call keeps its promise if and only if it does not wrap around. -/
theorem sbrkOk_iff (h : BreakInv start limit s) (hl : limit < 0xFFFF) (increment : Word) :
    SbrkOk start limit s increment ↔ NoWrap start limit s increment := by
  have hlib : s.brk.libBrk ≠ 0 → s.heap = s.brk.libBrk := fun h₀ => (h.lib.resolve_left h₀).symm
  have hlt := (s.heap + increment).isLt
  rcases h.sbrk_cases hl increment with ⟨h₀, hs⟩ | ⟨h₀, hin, hs⟩ | ⟨h₀, hout, hs⟩
  · constructor
    · intro hok
      -- nothing moved and the call did not fail, so the increment is 0
      have hz : increment = 0 := by
        rcases hok.moved with ⟨hm, -⟩ | ⟨-, hm⟩
        · rw [hs] at hm
          exact absurd hm (h.heap_ne hl)
        · rw [hs] at hm
          exact BitVec.eq_of_toInt_eq (by simp at hm ⊢; omega)
      refine ⟨fun _ => hz, fun _ => ?_⟩
      rw [hz]
      have hheap := s.heap.isLt
      have h0 : (0 : Word).toInt = 0 := rfl
      omega
    · intro hno
      have hz := hno.1 h₀
      refine ⟨?_, ?_, ?_, Or.inr ⟨?_, ?_⟩⟩ <;> rw [hs]
      · exact h.start_le
      · exact h.le_limit
      · simp [hz]
  · constructor
    · intro hok
      refine ⟨fun hz => absurd hz h₀, fun _ => ?_⟩
      rcases hok.moved with ⟨hm, -⟩ | ⟨-, hm⟩
      · rw [hs] at hm
        exact absurd hm (h.heap_ne hl)
      · rw [hs] at hm
        dsimp only at hm
        omega
    · intro hno
      obtain ⟨hlo, hhi⟩ := hno.2 hin
      refine ⟨?_, ?_, ?_, Or.inr ⟨?_, ?_⟩⟩ <;> rw [hs]
      · exact hin.1
      · exact hin.2
      · exact toNat_add_toInt _ _ hlo hhi
  · constructor
    · intro _
      exact ⟨fun hz => absurd hz h₀, fun hin => absurd hin hout⟩
    · intro _
      refine ⟨?_, ?_, ?_, Or.inl ⟨?_, ?_, ?_⟩⟩ <;> rw [hs]
      · exact h.start_le
      · exact h.le_limit
      · exact hlib

end BreakInv

/-! ## Sequences of calls -/

theorem breakInv_heapInitialize {s : Image} (hlib : s.brk.libBrk = 0) {start limit : Word}
    (hle : start ≤ limit) : BreakInv start limit (heapInitialize s start limit) :=
  ⟨rfl, rfl, Or.inl hlib, BitVec.le_refl _, hle⟩

/-- **The break moves by exactly the increment or not at all**, along every sequence of calls from
`heap_initialize(start, limit)`, if and only if no call wraps around into the heap or to 0. -/
theorem sbrk_exact_iff (s : Image) (hlib : s.brk.libBrk = 0) (start limit : Word) (hle : start ≤ limit)
    (hl : limit < 0xFFFF) (increments : List Word) :
    Steps sbrkStep (SbrkOk start limit) (heapInitialize s start limit) increments ↔
      Steps sbrkStep (NoWrap start limit) (heapInitialize s start limit) increments := by
  refine steps_congr (I := BreakInv start limit) ?_ ?_ (breakInv_heapInitialize hlib hle)
  · intro s increment h
    exact h.sbrkOk_iff hl increment
  · intro s increment s' h _ hstep
    obtain rfl := Option.some.inj hstep
    exact h.sbrk hl increment

/-- The kernel image with its `.bss` cleared. -/
def clearedImage : Image :=
  { heap := 0, heapSize := 0, fbTable := fun _ => 0, mem := fun _ => 0, brk := ⟨0, 0, 0⟩ }

/-- In a heap from `0x1000` to `0xF000` the break grows twice, fails to grow, and shrinks. -/
theorem sbrk_exact_iff_page :
    clearedImage.brk.libBrk = 0 ∧ (0x1000 : Word) ≤ 0xF000 ∧ (0xF000 : Word) < 0xFFFF ∧
      Steps sbrkStep (SbrkOk 0x1000 0xF000) (heapInitialize clearedImage 0x1000 0xF000)
        [0x1000, 0x7FFF, 0x6000, -0x800] := by
  refine ⟨rfl, by decide, by decide, ?_⟩
  refine (sbrk_exact_iff clearedImage rfl 0x1000 0xF000 (by decide) (by decide) _).mpr ?_
  refine ⟨by unfold NoWrap; decide, ?_⟩
  rintro _ ⟨⟩
  refine ⟨by unfold NoWrap; decide, ?_⟩
  rintro _ ⟨⟩
  refine ⟨by unfold NoWrap; decide, ?_⟩
  rintro _ ⟨⟩
  refine ⟨by unfold NoWrap; decide, ?_⟩
  rintro _ ⟨⟩
  trivial

/-- There `sbrk(-0x2000)` takes the break from `0x1000` to `0xF000`. -/
theorem not_steps_sbrkOk_below :
    ¬ Steps sbrkStep (SbrkOk 0x1000 0xF000) (heapInitialize clearedImage 0x1000 0xF000) [-0x2000] := by
  intro h
  rcases h.1.moved with ⟨hm, -⟩ | ⟨-, hm⟩
  · exact absurd hm (by decide)
  · exact absurd hm (by decide)

end I80k.Kernel

import I80k.Lib.Loop
import I80k.Libc.MallocSize

/-!
# Where `malloc` returns

`getindex` doubles the size of a block until it is large enough. The size has 16 bits: after `2 ^ 15` it is
zero, and stays so, and a larger block is never found. `malloc` calls it before it compares the index with
`MAX_INDEX`, so a request that is too large for every block is refused up to some size only, and
above it the call does not return.

## Main definitions

* `doubleTurn`: a turn of the loops of `getindex`
* `GetindexReturns`: the result of `getindex`, with no bound on the number of turns
* `GetindexLeast`: `getindex` returns the least index of a block that is large enough
* `MallocRefuses`: `malloc` returns null

## Main results

* `getindexReturns_iff`: `getindex` with its bounded loops is what the loops do
* `getindex_minimal_iff`: the sizes for which the index is returned, and the requests that are refused
-/

namespace I80k.Libc

variable {β : Type}

/-- A turn of `while (sz < bound) { sz = sz << 1; index++; }`. -/
def doubleTurn (bound : Word) (s : Word × ℕ) : (Word × ℕ) ⊕ ℕ :=
  if s.1 < bound then .inl (s.1 <<< 1, s.2 + 1) else .inr s.2

/-- `getindex(size)` returns `index`. -/
def GetindexReturns (size : Word) (index : ℕ) : Prop :=
  ∃ minIndex, Loop.Returns (doubleTurn minSize) (1, 0) minIndex ∧
    Loop.Returns (doubleTurn size) (minSize, minIndex) index

/-- `getindex` returns, and its result is the least index from 3 on whose block holds `size`. -/
def GetindexLeast (size : Word) : Prop :=
  ∃ i, GetindexReturns size i ∧ 3 ≤ i ∧ size.toNat ≤ 2 ^ i ∧ ∀ j, 3 ≤ j → size.toNat ≤ 2 ^ j → i ≤ j

/-- `malloc` returns null. -/
def MallocRefuses (sbrk : Sbrk β) (s : Data β) (size : Word) : Prop :=
  ∃ s', malloc sbrk s size = some (s', 0)

section Loops

variable {bound sz : Word} {index i fuel : ℕ}

/-- The loop returns after the turn in which the size is first large enough. -/
theorem doubleTurn_returns_iff : Loop.Returns (doubleTurn bound) (sz, index) i ↔
    ∃ n, i = index + n ∧ ¬ sz <<< n < bound ∧ ∀ k < n, sz <<< k < bound := by
  constructor
  · intro h
    generalize hs : (sz, index) = s at h
    induction h using Loop.Returns.induction generalizing sz index with
    | last s hlast =>
      subst hs
      rw [doubleTurn] at hlast
      split_ifs at hlast with hlt
      exact ⟨0, (Sum.inr.inj hlast).symm, by simpa using hlt, by simp⟩
    | next s t hst _ ih =>
      subst hs
      rw [doubleTurn] at hst
      split_ifs at hst with hlt
      obtain ⟨n, rfl, hn, hk⟩ := ih (Sum.inl.inj hst)
      refine ⟨n + 1, by omega, ?_, fun k hkn => ?_⟩
      · rwa [Nat.add_comm, BitVec.shiftLeft_add]
      · cases k with
        | zero => simpa using hlt
        | succ k =>
          rw [Nat.add_comm, BitVec.shiftLeft_add]
          exact hk k (by omega)
  · rintro ⟨n, rfl, hn, hk⟩
    induction n generalizing sz index with
    | zero =>
      have hlast : doubleTurn bound (sz, index) = .inr index := if_neg (by simpa using hn)
      exact (Loop.returns_of_inr hlast).mpr rfl
    | succ n ih =>
      have hnext : doubleTurn bound (sz, index) = .inl (sz <<< 1, index + 1) :=
        if_pos (by simpa using hk 0 (Nat.succ_pos n))
      have hrest : Loop.Returns (doubleTurn bound) (sz <<< 1, index + 1) (index + 1 + n) := by
        apply ih
        · rwa [Nat.add_comm, BitVec.shiftLeft_add] at hn
        · intro k hkn
          rw [← BitVec.shiftLeft_add, Nat.add_comm]
          exact hk (k + 1) (by omega)
      rw [Nat.add_right_comm, Nat.add_assoc] at hrest
      exact (Loop.returns_of_inl hnext).mpr hrest

/-- With a bound on the turns, it returns if this turn is among them. -/
theorem doubleUntil_iff : doubleUntil bound fuel sz index = some i ↔
    ∃ n < fuel, i = index + n ∧ ¬ sz <<< n < bound ∧ ∀ k < n, sz <<< k < bound := by
  constructor
  · intro h
    induction fuel generalizing sz index with
    | zero => exact absurd h (by simp [doubleUntil])
    | succ fuel ih =>
      rw [doubleUntil] at h
      split_ifs at h with hlt
      · obtain ⟨n, hf, rfl, hn, hk⟩ := ih h
        refine ⟨n + 1, by omega, by omega, ?_, fun k hkn => ?_⟩
        · rwa [Nat.add_comm, BitVec.shiftLeft_add]
        · cases k with
          | zero => simpa using hlt
          | succ k =>
            rw [Nat.add_comm, BitVec.shiftLeft_add]
            exact hk k (by omega)
      · exact ⟨0, Nat.succ_pos fuel, (Option.some.inj h).symm, by simpa using hlt, by simp⟩
  · rintro ⟨n, hf, rfl, hn, hk⟩
    induction n generalizing sz index fuel with
    | zero =>
      obtain ⟨fuel, rfl⟩ : ∃ f, fuel = f + 1 := ⟨fuel - 1, by omega⟩
      exact if_neg (by simpa using hn)
    | succ n ih =>
      obtain ⟨fuel, rfl⟩ : ∃ f, fuel = f + 1 := ⟨fuel - 1, by omega⟩
      have hlt : sz < bound := by simpa using hk 0 (Nat.succ_pos n)
      rw [doubleUntil, if_pos hlt, ← Nat.add_assoc, Nat.add_right_comm]
      apply ih (by omega)
      · rwa [Nat.add_comm, BitVec.shiftLeft_add] at hn
      · intro k hkn
        rw [← BitVec.shiftLeft_add, Nat.add_comm]
        exact hk (k + 1) (by omega)

/-- After 16 turns the size is zero, and nothing changes any more. -/
theorem doubleUntil_iff_returns :
    doubleUntil bound 17 sz index = some i ↔ Loop.Returns (doubleTurn bound) (sz, index) i := by
  rw [doubleUntil_iff, doubleTurn_returns_iff]
  constructor
  · rintro ⟨n, -, h⟩
    exact ⟨n, h⟩
  · rintro ⟨n, rfl, hn, hk⟩
    refine ⟨n, ?_, rfl, hn, hk⟩
    by_contra hlarge
    have hzero : ∀ {k}, 16 ≤ k → sz <<< k = 0 := fun h => BitVec.shiftLeft_eq_zero h
    have h16 := hk 16 (by omega)
    rw [hzero le_rfl] at h16
    exact hn (by rwa [hzero (by omega)])

end Loops

/-- **`getindex`**, whose loops are bounded in the model, is what the loops do. -/
theorem getindexReturns_iff {size : Word} {i : ℕ} : GetindexReturns size i ↔ getindex size = some i := by
  rw [getindex]
  constructor
  · rintro ⟨minIndex, hmin, hindex⟩
    exact Option.bind_eq_some_iff.mpr
      ⟨minIndex, doubleUntil_iff_returns.mpr hmin, doubleUntil_iff_returns.mpr hindex⟩
  · intro h
    obtain ⟨minIndex, hmin, hindex⟩ := Option.bind_eq_some_iff.mp h
    exact ⟨minIndex, doubleUntil_iff_returns.mp hmin, doubleUntil_iff_returns.mp hindex⟩

/-- `getindex` is right up to `2 ^ 15`, and does not return above. -/
theorem getindexLeast_iff {size : Word} : GetindexLeast size ↔ size.toNat ≤ 2 ^ 15 := by
  constructor
  · rintro ⟨i, hi, -⟩
    by_contra hlarge
    have hnone := getindexReturns_iff.mp hi
    rw [getindex_eq_none (not_le.mp hlarge)] at hnone
    cases hnone
  · intro h
    obtain ⟨i, hi, h3, hle, hmin⟩ := getindex_spec h
    refine ⟨i, getindexReturns_iff.mpr hi, h3, hle, fun j hj hlej => ?_⟩
    rcases hmin with rfl | hmin
    · exact hj
    · have hlt : i - 1 < j := (Nat.pow_lt_pow_iff_right (by norm_num)).mp (hmin.trans_le hlej)
      omega

section Refuses

variable {sbrk : Sbrk β} {s : Data β} {size : Word}

/-- A size that wraps around is a request for the smallest block. -/
theorem getindex_wrapped (hsize : 65534 ≤ size.toNat) : getindex (size + headerSize) = some 3 := by
  have hfull : (size + headerSize).toNat ≤ 1 := by
    rw [BitVec.toNat_add, show headerSize.toNat = 2 from rfl]
    omega
  obtain ⟨i, hi, -, -, hmin⟩ := getindex_spec (hfull.trans (by norm_num))
  rcases hmin with rfl | hmin
  · exact hi
  · have hpos : 0 < 2 ^ (i - 1) := Nat.two_pow_pos (i - 1)
    omega

/-- `malloc` returns where `getindex` does. -/
theorem exists_malloc {index : ℕ} (hindex : getindex (size + headerSize) = some index) :
    ∃ s' ptr, malloc sbrk s size = some (s', ptr) := by
  by_cases h₀ : size = 0
  · exact ⟨s, 0, if_pos h₀⟩
  rcases Nat.lt_or_ge maxIndex index with hlarge | hmax
  · refine ⟨initHeap sbrk s, 0, ?_⟩
    rw [malloc, if_neg h₀]
    simp only [hindex, Option.bind_some, if_pos hlarge]
  rcases hpop : popSmallest (maxIndex - index) (initHeap sbrk s) index with ⟨s', zone, i⟩
  by_cases hzone : zone = 0
  · subst hzone
    rw [malloc_of_sbrk h₀ hindex hmax hpop]
    split_ifs
    · exact ⟨_, _, rfl⟩
    · exact ⟨_, _, rfl⟩
  · rw [malloc_of_pop h₀ hindex hmax hpop hzone]
    exact ⟨_, _, rfl⟩

theorem mallocRefuses_wrapped (hsize : 65534 ≤ size.toNat) :
    MallocRefuses sbrk s size ↔ ¬ Supplies sbrk (initHeap sbrk s) 3 := by
  have hindex := getindex_wrapped hsize
  have hobtains : Obtains sbrk s size ↔ Supplies sbrk (initHeap sbrk s) 3 := by
    constructor
    · rintro ⟨-, i, -, hi, hsupply⟩
      rwa [Option.some.inj (hi.symm.trans hindex)] at hsupply
    · intro hsupply
      refine ⟨?_, 3, by decide, hindex, hsupply⟩
      rintro rfl
      exact absurd hsize (by decide)
  rw [← hobtains]
  constructor
  · rintro ⟨s', hcall⟩ h
    obtain ⟨s₁, ptr, hcall₁, hne, -⟩ := malloc_of_obtains h
    exact hne (Prod.mk.inj (Option.some.inj (hcall₁.symm.trans hcall))).2
  · intro h
    obtain ⟨s', ptr, hcall⟩ : ∃ s' ptr, malloc sbrk s size = some (s', ptr) := exists_malloc hindex
    obtain rfl := malloc_of_not_obtains h hcall
    exact ⟨s', hcall⟩

theorem mallocRefuses_large (hlo : 4096 < size.toNat + 2) (hhi : size.toNat < 65534) :
    MallocRefuses sbrk s size ↔ size.toNat + 2 ≤ 2 ^ 15 := by
  have hfull : (size + headerSize).toNat = size.toNat + 2 := by
    rw [BitVec.toNat_add, show headerSize.toNat = 2 from rfl, Nat.mod_eq_of_lt (by omega)]
  constructor
  · rintro ⟨s', hcall⟩
    by_contra hlarge
    have h₀ : size ≠ 0 := by
      rintro rfl
      exact absurd hlo (by decide)
    have hnone : getindex (size + headerSize) = none := getindex_eq_none (by omega)
    rw [malloc, if_neg h₀] at hcall
    simp only [hnone, Option.bind_none] at hcall
    cases hcall
  · intro hle
    have hsmall : (size + headerSize).toNat ≤ 2 ^ 15 := by omega
    obtain ⟨i, hi, -⟩ := getindex_spec hsmall
    obtain ⟨s', ptr, hcall⟩ : ∃ s' ptr, malloc sbrk s size = some (s', ptr) := exists_malloc hi
    obtain ⟨-, rfl⟩ := Prod.mk.inj (Client.malloc_large (by omega) hhi hcall)
    exact ⟨_, hcall⟩

end Refuses

/-- **Where the index is returned, and requests are refused.** `getindex` returns the least index, if and only if
the size is at most `2 ^ 15`. A request that does not fit in a page with its header is refused, in every state and
whatever `sbrk` does, if and only if it is at most `2 ^ 15` with its header, or wraps around and there is no memory
for the smallest block. -/
theorem getindex_minimal_iff (sbrk : Sbrk β) (s : Data β) (size : Word) :
    (GetindexLeast size ↔ size.toNat ≤ 2 ^ 15) ∧
      ((2 ^ maxIndex < size.toNat + 2 → MallocRefuses sbrk s size) ↔
        size.toNat + 2 ≤ 2 ^ 15 ∨ 65534 ≤ size.toNat ∧ ¬ Supplies sbrk (initHeap sbrk s) 3) := by
  have hmax : 2 ^ maxIndex = 4096 := rfl
  refine ⟨getindexLeast_iff, ?_⟩
  rcases Nat.lt_or_ge 4096 (size.toNat + 2) with hlo | hlo
  · rcases Nat.lt_or_ge size.toNat 65534 with hhi | hhi
    · rw [mallocRefuses_large hlo hhi]
      omega
    · rw [mallocRefuses_wrapped hhi]
      constructor
      · intro h
        exact .inr ⟨hhi, h (by omega)⟩
      · rintro (h | ⟨-, h⟩) -
        · exact absurd h (by omega)
        · exact h
  · -- the request fits in a page
    exact iff_of_true (fun h => absurd h (by omega)) (.inl (by omega))

/-- A request for 32767 bytes does not return, in a heap that was never used. -/
theorem not_getindex_minimal :
    ¬ ((∀ size, GetindexLeast size) ∧ ∀ size : Word, 2 ^ maxIndex < size.toNat + 2 →
      MallocRefuses (contiguousSbrk true) (Client.init 0x1000 fun _ => 0).toData size) := by
  rintro ⟨-, h⟩
  have hrefuses := (mallocRefuses_large (by decide) (by decide)).mp (h 32767 (by decide))
  exact absurd hrefuses (by decide)

end I80k.Libc

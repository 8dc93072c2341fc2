import I80k.Libc.MallocInvariant

/-!
# What `malloc` and `calloc` provide

A block begins with its header, and `size_t` has 16 bits. `malloc` adds the size of the header to the size it
is asked for, and `calloc` multiplies the number of its elements by their size: a sum or a product that wraps
around is a small request, and is served as one. On the other side, a block has 4096 bytes at most: with its
header it holds 4094, and the request for a page is refused.

Both are statements about every state. A pointer is null also if the header of its block is in the last word of
the address space; there are no such blocks in a heap.

## Main definitions

* `calloc`, `Data.memset`: the other functions of `malloc.c` and what they use
* `Obtains`: there is memory for a request
* `MallocEnough`, `CallocEnough`: the block that is returned is as large as was asked for
* `Client.request`: an operation of a client that asks for any size
* `Client.Serves`: a request is served whenever there is memory for it

## Main results

* `malloc_of_obtains`, `malloc_of_not_obtains`: what `malloc` returns, in every state
* `malloc_enough_iff`: enough is returned exactly for sizes and products below 65534
* `malloc_serves_iff`: the sizes that are served whenever there is memory
-/

namespace I80k.Libc

open StepSystem

variable {β : Type}

/-! ## The functions -/

/-- The byte at an address. -/
def Data.byte (s : Data β) (a : Word) : BitVec 8 := (s.mem a).extractLsb' 0 8

/-- `memset(dst, value, count)`. A word has its bytes at its address and at the next one. -/
def Data.memset (s : Data β) (dst : Word) (value : BitVec 8) (count : Word) : Data β :=
  { s with mem := fun a =>
      (if a + 1 - dst < count then value else (s.mem a).extractLsb' 8 8) ++
        (if a - dst < count then value else (s.mem a).extractLsb' 0 8) }

/-- A pointer to `nmemb` elements of `size` bytes, set to zero, or null. -/
def calloc (sbrk : Sbrk β) (s : Data β) (nmemb size : Word) : Option (Data β × Word) :=
  let sz := nmemb * size
  if sz = 0 then some (s, 0)
  else
    (malloc sbrk s sz).map fun (s, ptr) => if ptr = 0 then (s, 0) else (s.memset ptr 0 sz, ptr)

/-- The block of `ptr`, of the size that its header gives it, has `n` bytes after the header. -/
def Data.Provides (s : Data β) (ptr : Word) (n : ℕ) : Prop :=
  ∃ index, getindex (s.mem (ptr - headerSize)) = some index ∧ n + headerSize.toNat ≤ 2 ^ index

/-- If `malloc(size)` returns a pointer, its block has `size` bytes. -/
def MallocEnough (sbrk : Sbrk β) (s : Data β) (size : Word) : Prop :=
  ∀ s' ptr, malloc sbrk s size = some (s', ptr) → ptr ≠ 0 → s'.Provides ptr size.toNat

/-- If `calloc(nmemb, size)` returns a pointer, its block has `nmemb * size` bytes, and they are zero. -/
def CallocEnough (sbrk : Sbrk β) (s : Data β) (nmemb size : Word) : Prop :=
  ∀ s' ptr, calloc sbrk s nmemb size = some (s', ptr) → ptr ≠ 0 →
    s'.Provides ptr (nmemb.toNat * size.toNat) ∧
      ∀ i < nmemb.toNat * size.toNat, s'.byte (ptr + BitVec.ofNat 16 i) = 0

/-! ## The free blocks -/

section Supply

variable (sbrk : Sbrk β) (s : Data β)

/-- The lists from `index` on are empty. -/
def Data.Exhausted (index : ℕ) : Prop := ∀ j, index ≤ j → j ≤ maxIndex → s.fbTable j = 0

/-- The first of these lists that is not empty begins with the block at `zone`. -/
def Data.FirstFree (index : ℕ) (zone : Word) : Prop :=
  ∃ i, index ≤ i ∧ i ≤ maxIndex ∧ s.fbTable i = zone ∧ zone ≠ 0 ∧ ∀ j, index ≤ j → j < i → s.fbTable j = 0

/-- There is a block for the index `index`, on a list or in a new page, and its memory is not at the address
0. -/
def Supplies (index : ℕ) : Prop :=
  (∃ zone, s.FirstFree index zone ∧ zone + headerSize ≠ 0) ∨
    s.Exhausted index ∧ (sbrk s pageSize).2 ≠ -1 ∧
      (sbrk s pageSize).1.heap + (sbrk s pageSize).1.heapSize + headerSize ≠ 0

/-- There is memory for `size` bytes and a header, computed as `malloc` does. -/
def Obtains (size : Word) : Prop :=
  size ≠ 0 ∧ ∃ index ≤ maxIndex, getindex (size + headerSize) = some index ∧
    Supplies sbrk (initHeap sbrk s) index

end Supply

section Pop

variable {s : Data β} {index : ℕ}

theorem Data.exhausted_or_firstFree (s : Data β) (index : ℕ) :
    s.Exhausted index ∨ ∃ zone, s.FirstFree index zone := by
  by_cases h : ∃ i, index ≤ i ∧ i ≤ maxIndex ∧ s.fbTable i ≠ 0
  · obtain ⟨hle, hmax, hne⟩ := Nat.find_spec h
    refine Or.inr ⟨_, Nat.find h, hle, hmax, rfl, hne, fun j hj hlt => ?_⟩
    by_contra hj₀
    exact Nat.find_min h hlt ⟨hj, by omega, hj₀⟩
  · refine Or.inl fun j hj hmax => ?_
    by_contra hj₀
    exact h ⟨j, hj, hmax, hj₀⟩

theorem fbPop_snd (s : Data β) (i : ℕ) : (fbPop s i).2 = s.fbTable i := by
  simp only [fbPop]
  split_ifs
  · rfl
  · rfl

theorem fbPop_of_eq_zero {i : ℕ} (h : s.fbTable i = 0) : fbPop s i = (s, 0) := by
  rw [fbPop, h]
  exact if_neg (not_not.mpr rfl)

/-- The loop over the lists finds nothing, if they are empty. -/
theorem popSmallest_exhausted (n : ℕ) : ∀ {i : ℕ}, i + n = maxIndex → s.Exhausted i →
    ∃ k, popSmallest n s i = (s, 0, k) := by
  induction n with
  | zero =>
    intro i hi h
    exact ⟨i, by rw [popSmallest, fbPop_of_eq_zero (h i le_rfl (by omega))]⟩
  | succ n ih =>
    intro i hi h
    obtain ⟨k, hk⟩ := ih (i := i + 1) (by omega) fun j hj hmax => h j (by omega) hmax
    refine ⟨k, ?_⟩
    rw [popSmallest, fbPop_of_eq_zero (h i le_rfl (by omega)), if_pos rfl]
    exact hk

/-- Else it finds the first free block. -/
theorem popSmallest_firstFree {zone : Word} (n : ℕ) : ∀ {i : ℕ}, i + n = maxIndex → s.FirstFree i zone →
    ∃ s' k, popSmallest n s i = (s', zone, k) := by
  induction n with
  | zero =>
    rintro i hi ⟨k, hle, hmax, hzone, hne, -⟩
    obtain rfl : i = k := by omega
    exact ⟨(fbPop s i).1, i, by rw [popSmallest, fbPop_snd, hzone]⟩
  | succ n ih =>
    rintro i hi ⟨k, hle, hmax, hzone, hne, hmin⟩
    rcases hle.eq_or_lt with rfl | hlt
    · exact ⟨(fbPop s i).1, i, by rw [popSmallest, fbPop_snd, hzone, if_neg hne]⟩
    · have h₀ := hmin i le_rfl hlt
      obtain ⟨s', k', hk'⟩ := ih (i := i + 1) (by omega)
        ⟨k, hlt, hmax, hzone, hne, fun j hj hjk => hmin j (by omega) hjk⟩
      refine ⟨s', k', ?_⟩
      rw [popSmallest, fbPop_of_eq_zero h₀, if_pos rfl]
      exact hk'

end Pop

/-! ## What `malloc` returns -/

section Returns

variable {sbrk : Sbrk β} {s s' : Data β} {size ptr : Word} {index : ℕ}

theorem carve_mem (s : Data β) (zone : Word) (i index : ℕ) (fullSize : Word) :
    (carve s zone i index fullSize).1.mem ((carve s zone i index fullSize).2 - headerSize) = fullSize := by
  simp only [carve, add_sub_cancel_right, Function.update_self]

/-- **Where there is memory**, `malloc` returns a pointer, with the size and that of the header before it. -/
theorem malloc_of_obtains (h : Obtains sbrk s size) :
    ∃ s' ptr, malloc sbrk s size = some (s', ptr) ∧ ptr ≠ 0 ∧
      s'.mem (ptr - headerSize) = size + headerSize := by
  obtain ⟨h₀, index, hmax, hindex, hsupply⟩ := h
  rcases hsupply with ⟨zone, hfree, hptr⟩ | ⟨hempty, hsbrk, hptr⟩
  · obtain ⟨s₁, i, hpop⟩ := popSmallest_firstFree (maxIndex - index) (by omega) hfree
    have hne : zone ≠ 0 := by
      obtain ⟨-, -, -, -, hne, -⟩ := hfree
      exact hne
    rw [malloc_of_pop h₀ hindex hmax hpop hne]
    exact ⟨_, _, rfl, hptr, carve_mem _ _ _ _ _⟩
  · obtain ⟨i, hpop⟩ := popSmallest_exhausted (maxIndex - index) (by omega) hempty
    rw [malloc_of_sbrk h₀ hindex hmax hpop, if_neg hsbrk]
    exact ⟨_, _, rfl, hptr, carve_mem _ _ _ _ _⟩

/-- Where there is none, it returns null, or does not return. -/
theorem malloc_of_not_obtains (h : ¬ Obtains sbrk s size) (hcall : malloc sbrk s size = some (s', ptr)) :
    ptr = 0 := by
  by_cases h₀ : size = 0
  · rw [malloc, if_pos h₀] at hcall
    exact (Prod.mk.inj (Option.some.inj hcall)).2.symm
  cases hindex : getindex (size + headerSize) with
  | none =>
    rw [malloc, if_neg h₀] at hcall
    simp only [hindex, Option.bind_none] at hcall
    cases hcall
  | some index =>
    rcases Nat.lt_or_ge maxIndex index with hlarge | hmax
    · rw [malloc, if_neg h₀] at hcall
      simp only [hindex, Option.bind_some, if_pos hlarge] at hcall
      exact (Prod.mk.inj (Option.some.inj hcall)).2.symm
    -- What the lists or the system have begins in the last word of the address space.
    by_contra hne
    refine h ⟨h₀, index, hmax, hindex, ?_⟩
    rcases (initHeap sbrk s).exhausted_or_firstFree index with hempty | ⟨zone, hfree⟩
    · obtain ⟨i, hpop⟩ := popSmallest_exhausted (maxIndex - index) (by omega) hempty
      rw [malloc_of_sbrk h₀ hindex hmax hpop] at hcall
      split_ifs at hcall with hsbrk
      · exact absurd (Prod.mk.inj (Option.some.inj hcall)).2.symm hne
      · obtain rfl := (Prod.mk.inj (Option.some.inj hcall)).2
        exact Or.inr ⟨hempty, hsbrk, hne⟩
    · obtain ⟨s₁, i, hpop⟩ := popSmallest_firstFree (maxIndex - index) (by omega) hfree
      have hzone : zone ≠ 0 := by
        obtain ⟨-, -, -, -, hzone, -⟩ := hfree
        exact hzone
      rw [malloc_of_pop h₀ hindex hmax hpop hzone] at hcall
      obtain rfl := (Prod.mk.inj (Option.some.inj hcall)).2
      exact Or.inl ⟨zone, hfree, hne⟩

/-- `malloc` returns if the loop of `getindex` ends. -/
theorem malloc_isSome (hindex : (getindex (size + headerSize)).isSome) (sbrk : Sbrk β) (s : Data β) :
    (malloc sbrk s size).isSome := by
  obtain ⟨index, hindex⟩ := Option.isSome_iff_exists.mp hindex
  rw [malloc]
  simp only [hindex, Option.bind_some]
  split_ifs <;> rfl

/-- If the pointer is not null, there was memory, and the header of the block is that of the request. -/
theorem obtains_of_malloc (hcall : malloc sbrk s size = some (s', ptr)) (hne : ptr ≠ 0) :
    Obtains sbrk s size ∧ s'.mem (ptr - headerSize) = size + headerSize := by
  have hobtains : Obtains sbrk s size := by
    by_contra hnot
    exact hne (malloc_of_not_obtains hnot hcall)
  obtain ⟨s₁, ptr₁, hcall₁, -, hmem⟩ := malloc_of_obtains hobtains
  obtain ⟨rfl, rfl⟩ := Prod.mk.inj (Option.some.inj (hcall₁.symm.trans hcall))
  exact ⟨hobtains, hmem⟩

/-- A block has `2 ^ 15` bytes at most, for every header. -/
theorem not_provides {n : ℕ} (hn : 65534 ≤ n) : ¬ s.Provides ptr n := by
  rintro ⟨index, hindex, hle⟩
  have hheader : headerSize.toNat = 2 := rfl
  -- past 2 ^ 15 the loop of `getindex` does not end, so there is no such header
  rcases le_or_gt (s.mem (ptr - headerSize)).toNat (2 ^ 15) with hsmall | hlarge
  · obtain ⟨i, hi, -, -, hmin⟩ := getindex_spec hsmall
    obtain rfl : i = index := Option.some.inj (hi.symm.trans hindex)
    have hi15 : i ≤ 15 := by
      rcases hmin with rfl | hmin
      · omega
      · have := (Nat.pow_lt_pow_iff_right (by norm_num : 1 < 2)).mp (lt_of_lt_of_le hmin hsmall)
        omega
    have hpow : 2 ^ i ≤ 2 ^ 15 := Nat.pow_le_pow_right (by norm_num) hi15
    omega
  · rw [getindex_eq_none hlarge] at hindex
    cases hindex

/-- The header of a request that does not wrap around gives a block that is large enough. -/
theorem provides_of_mem (hsize : size.toNat < 65534) (hindex : (getindex (size + headerSize)).isSome)
    (hmem : s.mem (ptr - headerSize) = size + headerSize) : s.Provides ptr size.toNat := by
  have hfull : (size + headerSize).toNat = size.toNat + headerSize.toNat := by
    rw [BitVec.toNat_add, show headerSize.toNat = 2 from rfl, Nat.mod_eq_of_lt (by omega)]
  rcases le_or_gt (size + headerSize).toNat (2 ^ 15) with hsmall | hlarge
  · obtain ⟨index, hi, -, hle, -⟩ := getindex_spec hsmall
    exact ⟨index, by rw [hmem, hi], hfull ▸ hle⟩
  · rw [getindex_eq_none hlarge] at hindex
    cases hindex

theorem mallocEnough_iff : MallocEnough sbrk s size ↔ size.toNat < 65534 ∨ ¬ Obtains sbrk s size := by
  constructor
  · intro h
    by_contra hcond
    obtain ⟨hlarge, hobtains⟩ := not_or.mp hcond
    obtain ⟨s', ptr, hcall, hne, -⟩ := malloc_of_obtains (not_not.mp hobtains)
    exact not_provides (not_lt.mp hlarge) (h s' ptr hcall hne)
  · rintro h s' ptr hcall hne
    obtain ⟨hobtains, hmem⟩ := obtains_of_malloc hcall hne
    have hsize := h.resolve_right (not_not.mpr hobtains)
    obtain ⟨-, index, -, hindex, -⟩ := hobtains
    exact provides_of_mem hsize (Option.isSome_of_eq_some hindex) hmem

/-! ## `calloc` -/

/-- The bytes that are set. -/
theorem byte_memset {dst count : Word} {value : BitVec 8} {i : ℕ} (hi : i < count.toNat) :
    (s.memset dst value count).byte (dst + BitVec.ofNat 16 i) = value := by
  have hlt : dst + BitVec.ofNat 16 i - dst < count := by
    rw [add_sub_cancel_left, BitVec.lt_def, BitVec.toNat_ofNat, Nat.mod_eq_of_lt (by omega)]
    exact hi
  rw [Data.byte, Data.memset]
  simp only [if_pos hlt]
  exact BitVec.extractLsb'_append_eq_right

/-- A header before them is not touched. -/
theorem mem_memset_header {dst count : Word} {value : BitVec 8} (hcount : count.toNat < 65534) :
    (s.memset dst value count).mem (dst - headerSize) = s.mem (dst - headerSize) := by
  -- the bytes of the header are 65534 and 65535 bytes after the start
  have hlow : ¬ dst - headerSize - dst < count := by
    rw [sub_right_comm, sub_self, zero_sub, BitVec.lt_def, show (-headerSize).toNat = 65534 from rfl]
    omega
  have hhigh : ¬ dst - headerSize + 1 - dst < count := by
    rw [show dst - headerSize + 1 - dst = 1 - headerSize by ring, BitVec.lt_def,
      show (1 - headerSize).toNat = 65535 from rfl]
    omega
  rw [Data.memset]
  simp only [if_neg hlow, if_neg hhigh]
  exact BitVec.extractLsb'_append_extractLsb'

variable {nmemb : Word}

/-- `calloc` returns a pointer where `malloc` does, for the product that it computes. -/
theorem calloc_of_obtains (h : Obtains sbrk s (nmemb * size)) :
    ∃ (s' : Data β) (ptr : Word),
      calloc sbrk s nmemb size = some (s'.memset ptr 0 (nmemb * size), ptr) ∧ ptr ≠ 0 ∧
      s'.mem (ptr - headerSize) = nmemb * size + headerSize := by
  obtain ⟨s', ptr, hcall, hne, hmem⟩ := malloc_of_obtains h
  refine ⟨s', ptr, ?_, hne, hmem⟩
  simp only [calloc, if_neg h.1, hcall, Option.map_some, if_neg hne]

theorem calloc_of_not_obtains (h : ¬ Obtains sbrk s (nmemb * size))
    (hcall : calloc sbrk s nmemb size = some (s', ptr)) : ptr = 0 := by
  simp only [calloc] at hcall
  split_ifs at hcall with h₀
  · exact (Prod.mk.inj (Option.some.inj hcall)).2.symm
  · obtain ⟨⟨s₁, ptr₁⟩, hmalloc, hcall⟩ := Option.map_eq_some_iff.mp hcall
    dsimp only at hcall
    rw [if_pos (malloc_of_not_obtains h hmalloc)] at hcall
    exact (Prod.mk.inj hcall).2.symm

theorem callocEnough_iff :
    CallocEnough sbrk s nmemb size ↔
      nmemb.toNat * size.toNat < 65534 ∨ ¬ Obtains sbrk s (nmemb * size) := by
  constructor
  · intro h
    by_contra hcond
    obtain ⟨hlarge, hobtains⟩ := not_or.mp hcond
    obtain ⟨s', ptr, hcall, hne, -⟩ := calloc_of_obtains (not_not.mp hobtains)
    exact not_provides (not_lt.mp hlarge) (h _ ptr hcall hne).1
  · rintro h s' ptr hcall hne
    have hobtains : Obtains sbrk s (nmemb * size) := by
      by_contra hnot
      exact hne (calloc_of_not_obtains hnot hcall)
    have hsize := h.resolve_right (not_not.mpr hobtains)
    -- The product does not wrap around.
    have hprod : (nmemb * size).toNat = nmemb.toNat * size.toNat := by
      rw [BitVec.toNat_mul, Nat.mod_eq_of_lt (by omega)]
    obtain ⟨s₁, ptr₁, hcall₁, -, hmem⟩ := calloc_of_obtains hobtains
    obtain ⟨rfl, rfl⟩ := Prod.mk.inj (Option.some.inj (hcall₁.symm.trans hcall))
    obtain ⟨-, index, -, hindex, -⟩ := hobtains
    rw [← hprod] at hsize ⊢
    refine ⟨provides_of_mem hsize (Option.isSome_of_eq_some hindex) ?_, fun i hi => byte_memset hi⟩
    rw [mem_memset_header hsize, hmem]

end Returns

/-- **Allocation returns what was asked for, exactly when it does.** In every state, and whatever `sbrk` does:
`malloc(size)` returns enough memory, if it returns any, if and only if `size` is below 65534, or there is no
memory for a block of the size that it computes; `calloc(nmemb, size)`, if and only if the product is. -/
theorem malloc_enough_iff (sbrk : Sbrk β) (s : Data β) (nmemb size : Word) :
    (MallocEnough sbrk s size ↔ size.toNat < 65534 ∨ ¬ Obtains sbrk s size) ∧
      (CallocEnough sbrk s nmemb size ↔
        nmemb.toNat * size.toNat < 65534 ∨ ¬ Obtains sbrk s (nmemb * size)) :=
  ⟨mallocEnough_iff, callocEnough_iff⟩

/-- A request for 65535 bytes is served with a block of 8, and one for 257 elements of 256 bytes with one of
512. -/
theorem not_enough_wrapped :
    ((malloc (contiguousSbrk true) (Client.init 0x1000 fun _ => 0).toData 65535).map fun r =>
        (r.2, r.1.mem (r.2 - headerSize))) = some (0x1002, 1) ∧
      ¬ MallocEnough (contiguousSbrk true) (Client.init 0x1000 fun _ => 0).toData 65535 ∧
    ((calloc (contiguousSbrk true) (Client.init 0x1000 fun _ => 0).toData 257 256).map fun r =>
        (r.2, r.1.mem (r.2 - headerSize))) = some (0x1002, 258) ∧
      ¬ CallocEnough (contiguousSbrk true) (Client.init 0x1000 fun _ => 0).toData 257 256 := by
  have hmalloc : ((malloc (contiguousSbrk true) (Client.init 0x1000 fun _ => 0).toData 65535).map fun r =>
      (r.2, r.1.mem (r.2 - headerSize))) = some (0x1002, 1) := by
    decide
  have hcalloc : ((calloc (contiguousSbrk true) (Client.init 0x1000 fun _ => 0).toData 257 256).map fun r =>
      (r.2, r.1.mem (r.2 - headerSize))) = some (0x1002, 258) := by
    decide
  refine ⟨hmalloc, fun h => ?_, hcalloc, fun h => ?_⟩
  · obtain ⟨⟨s', ptr⟩, hcall, hptr⟩ := Option.map_eq_some_iff.mp hmalloc
    obtain ⟨rfl, -⟩ := Prod.mk.inj hptr
    exact not_provides (by decide) (h s' 0x1002 hcall (by decide))
  · obtain ⟨⟨s', ptr⟩, hcall, hptr⟩ := Option.map_eq_some_iff.mp hcalloc
    obtain ⟨rfl, -⟩ := Prod.mk.inj hptr
    exact not_provides (by decide) (h s' 0x1002 hcall (by decide)).1

/-! ## Requests that are served -/

namespace Client

/-- The operations of a client that asks for any size; a size that wraps around gives it less than it takes
its memory for. -/
def MayAsk (c : Client) : Op → Prop
  | .malloc size _ => size.toNat < 65534
  | op => c.Admits op

instance (c : Client) : DecidablePred c.MayAsk
  | .malloc _ _ => inferInstanceAs (Decidable (_ < _))
  | .free ptr => inferInstanceAs (Decidable (c.Admits (.free ptr)))
  | .store address value => inferInstanceAs (Decidable (c.Admits (.store address value)))

/-- One operation of it. -/
def request (c : Client) (op : Op) : Option Client := if c.MayAsk op then c.exec op else none

/-- If a list has a block for `size` bytes and a header, or `sbrk(4096)` succeeds, then `malloc(size)` returns a
pointer. -/
def Serves (c : Client) (size : Word) (grant : Bool) : Prop :=
  (∃ i ≤ maxIndex, size.toNat + headerSize.toNat ≤ 2 ^ i ∧ c.fbTable i ≠ 0) ∨
      (contiguousSbrk grant c.toData pageSize).2 ≠ -1 →
    ∃ s' ptr, Libc.malloc (contiguousSbrk grant) c.toData size = some (s', ptr) ∧ ptr ≠ 0

variable {base : Word} {c c' : Client}

/-- A request that does not fit in a page only sets the start of the heap. -/
theorem malloc_large {sbrk : Sbrk β} {s : Data β} {size : Word} (hlo : 4094 < size.toNat)
    (hhi : size.toNat < 65534) {r : Data β × Word} (h : Libc.malloc sbrk s size = some r) :
    r = (initHeap sbrk s, 0) := by
  have h₀ : size ≠ 0 := by
    rintro rfl
    simp at hlo
  have hfull : 4096 < (size + headerSize).toNat := by
    rw [BitVec.toNat_add, show headerSize.toNat = 2 from rfl, Nat.mod_eq_of_lt (by omega)]
    omega
  rw [Libc.malloc, if_neg h₀] at h
  obtain ⟨index, hindex, h⟩ := Option.bind_eq_some_iff.mp h
  rw [if_pos (maxIndex_lt_of_getindex hfull hindex)] at h
  exact (Option.some.inj h).symm

/-- The layout of the heap is kept whatever the client asks for. -/
theorem Inv.request (hbase : base ≠ 0) (h : Inv base c) {op : Op} (hstep : c.request op = some c') :
    Inv base c' := by
  rw [Client.request] at hstep
  split_ifs at hstep with hask
  by_cases hadmits : c.Admits op
  · obtain ⟨c₁, hc₁, hinv⟩ := h.exec hbase hadmits
    exact Option.some.inj (hc₁.symm.trans hstep) ▸ hinv
  -- A request for nothing, or for more than a page.
  cases op with
  | free ptr => exact absurd hask hadmits
  | store address value => exact absurd hask hadmits
  | malloc size grant =>
    obtain ⟨⟨s', ptr⟩, hcall, rfl⟩ := Option.map_eq_some_iff.mp hstep
    by_cases h₀ : size = 0
    · rw [Libc.malloc, if_pos h₀] at hcall
      obtain ⟨rfl, rfl⟩ := Prod.mk.inj (Option.some.inj hcall)
      exact h
    · have hlo : 4094 < size.toNat := by
        by_contra hle
        refine hadmits ⟨?_, not_lt.mp hle⟩
        have hpos : size.toNat ≠ 0 := fun hz => h₀ (BitVec.eq_of_toNat_eq hz)
        rw [BitVec.le_def]
        exact Nat.one_le_iff_ne_zero.mpr hpos
      obtain ⟨rfl, rfl⟩ := Prod.mk.inj (malloc_large hlo hask hcall)
      rw [initHeap_eq hbase h]
      exact ⟨Or.inl rfl, h.layout, h.sizes, h.headers⟩

end Client

section Layout

variable {base : Word} {s : Data ℕ} {fb : ℕ → List ℕ} {used : List DyadicTiling.Block} {index : ℕ}

/-- The head of a list that is not empty. -/
theorem Layout.head_mem (h : Layout base s fb used) {i : ℕ} (hne : s.fbTable i ≠ 0) :
    ∃ o ∈ fb i, s.fbTable i = addr base o := by
  have hchain := h.chain i
  cases hi : fb i with
  | nil =>
    rw [hi] at hchain
    exact absurd hchain hne
  | cons o os =>
    rw [hi] at hchain
    exact ⟨o, List.mem_cons_self, hchain.1⟩

/-- The memory of a free block is not at the address 0. -/
theorem Layout.firstFree_ne (h : Layout base s fb used) {zone : Word} (hfree : s.FirstFree index zone) :
    zone + headerSize ≠ 0 := by
  obtain ⟨i, -, -, rfl, hne, -⟩ := hfree
  obtain ⟨o, ho, haddr⟩ := h.head_mem hne
  have hptr := h.toNat_ptr (List.mem_append_right used (h.mem_free ho))
  intro h₀
  dsimp only at hptr
  rw [← haddr, h₀] at hptr
  simp at hptr

/-- Neither is that of a new page. -/
theorem Layout.page_ne (h : Layout base s fb used) {grant : Bool}
    (hsbrk : (contiguousSbrk grant s pageSize).2 ≠ -1) :
    (contiguousSbrk grant s pageSize).1.heap + (contiguousSbrk grant s pageSize).1.heapSize + headerSize ≠ 0 := by
  unfold contiguousSbrk at hsbrk ⊢
  rw [if_neg (by decide)] at hsbrk ⊢
  split_ifs at hsbrk ⊢ with hgrant
  · -- The page ends within the address space.
    have hpage : pageSize.toNat = 4096 := rfl
    have hle := h.base_le
    intro h₀
    have htoNat := congrArg BitVec.toNat h₀
    dsimp only at htoNat
    rw [h.heap, h.heapSize, BitVec.toNat_add, BitVec.toNat_add, BitVec.toNat_ofNat,
      show headerSize.toNat = 2 from rfl, show (0 : Word).toNat = 0 from rfl] at htoNat
    omega
  · exact absurd rfl hsbrk

/-- There is memory for an index, if a list has it or the system. -/
theorem Layout.supplies (h : Layout base s fb used) {grant : Bool}
    (hsupply : (∃ i, index ≤ i ∧ i ≤ maxIndex ∧ s.fbTable i ≠ 0) ∨ (contiguousSbrk grant s pageSize).2 ≠ -1) :
    Supplies (contiguousSbrk grant) s index := by
  rcases s.exhausted_or_firstFree index with hempty | ⟨zone, hfree⟩
  · have hsbrk : (contiguousSbrk grant s pageSize).2 ≠ -1 := by
      refine hsupply.resolve_left ?_
      rintro ⟨i, hle, hmax, hne⟩
      exact hne (hempty i hle hmax)
    exact Or.inr ⟨hempty, hsbrk, h.page_ne hsbrk⟩
  · exact Or.inl ⟨zone, hfree, h.firstFree_ne hfree⟩

end Layout

/-- The answer of the system depends on the break only. -/
theorem contiguousSbrk_snd {s s' : Data ℕ} (h : s.brk = s'.brk) (grant : Bool) (increment : Word) :
    (contiguousSbrk grant s increment).2 = (contiguousSbrk grant s' increment).2 := by
  unfold contiguousSbrk
  rw [h]
  split_ifs
  all_goals rfl

namespace Client

variable {base : Word} {c : Client}

/-- A size up to 4094 is served. -/
theorem Inv.serves (hbase : base ≠ 0) (h : Inv base c) {size : Word} (h₁ : 1 ≤ size) (h₂ : size ≤ 4094)
    (grant : Bool) : c.Serves size grant := by
  intro hsupply
  have h₀ : size ≠ 0 := by
    rintro rfl
    exact absurd h₁ (by decide)
  obtain ⟨hindex, -, hmax, -⟩ := blockIndex_spec h₂
  obtain ⟨fb, hl⟩ := h.layout
  have hobtains : Obtains (contiguousSbrk grant) c.toData size := by
    refine ⟨h₀, blockIndex size, hmax, hindex, ?_⟩
    rw [initHeap_eq hbase h]
    refine hl.supplies (hsupply.imp ?_ fun hsbrk => ?_)
    · rintro ⟨i, hi, hfit, hne⟩
      obtain ⟨o, ho, -⟩ := hl.head_mem hne
      obtain ⟨h3, -, -⟩ := hl.shape ⟨o, i⟩ (List.mem_append_right _ (hl.mem_free ho))
      exact ⟨i, blockIndex_le h₂ h3 hfit, hi, hne⟩
    · intro hfail
      have hbrk : c.toData.brk = ({ c.toData with heap := base } : Data ℕ).brk := rfl
      exact hsbrk ((contiguousSbrk_snd hbrk grant pageSize).trans hfail)
  obtain ⟨s', ptr, hcall, hne, -⟩ := malloc_of_obtains hobtains
  exact ⟨s', ptr, hcall, hne⟩

/-- A client that gives back what it asked for last can have as much again, whatever the system answers. -/
theorem Inv.obtains_free (hbase : base ≠ 0) (h : Inv base c) {size ptr : Word} {live : List (Word × Word)}
    (hlive : c.live = (ptr, size) :: live) (h₁ : 1 ≤ size) {c' : Client} (hfree : c.exec (.free ptr) = some c')
    (grant : Bool) : Obtains (contiguousSbrk grant) c'.toData size := by
  have hmem : (ptr, size) ∈ c.live := hlive ▸ List.mem_cons_self
  have h₂ : size ≤ 4094 := h.sizes _ hmem
  have h₀ : size ≠ 0 := by
    rintro rfl
    exact absurd h₁ (by decide)
  obtain ⟨hindex, -, hmax, -⟩ := blockIndex_spec h₂
  obtain ⟨fb, hl⟩ := h.layout
  have hdata : { c.toData with heap := base } = c.toData := by rw [← h.heap_eq hmem]
  rw [hdata, hlive] at hl
  obtain ⟨s', hcall, ⟨fb', hl'⟩, hlist, -⟩ := free_spec hbase hl h₂ (h.headers _ hmem)
  obtain ⟨s₁, hs₁, rfl⟩ := Option.map_eq_some_iff.mp hfree
  obtain rfl : s' = s₁ := Option.some.inj (hcall.symm.trans hs₁)
  refine ⟨h₀, blockIndex size, hmax, hindex, ?_⟩
  rw [initHeap_of_heap hbase _ hl'.heap]
  exact hl'.supplies (Or.inl hlist)

/-- More is not, even if the system has a page. -/
theorem serves_large_iff {size : Word} (hlo : 4094 < size.toNat) (hhi : size ≤ 4096) (grant : Bool) :
    c.Serves size grant ↔ (contiguousSbrk grant c.toData pageSize).2 = -1 := by
  have hhi' : size.toNat ≤ 4096 := hhi
  have hnot : ¬ ∃ s' ptr, Libc.malloc (contiguousSbrk grant) c.toData size = some (s', ptr) ∧ ptr ≠ 0 := by
    rintro ⟨s', ptr, hcall, hne⟩
    exact hne (Prod.mk.inj (malloc_large hlo (by omega) hcall)).2
  have hlist : ¬ ∃ i ≤ maxIndex, size.toNat + headerSize.toNat ≤ 2 ^ i ∧ c.fbTable i ≠ 0 := by
    rintro ⟨i, hi, hfit, -⟩
    have hpow : 2 ^ i ≤ 2 ^ maxIndex := Nat.pow_le_pow_right (by norm_num) hi
    have hmax : 2 ^ maxIndex = 4096 := rfl
    have hheader : headerSize.toNat = 2 := rfl
    omega
  simp only [Serves, hnot, hlist, false_or, imp_false, not_not]

end Client

/-- **The requests that are served.** After every run of a client, whatever sizes it asks for: `malloc(size)`
returns a pointer whenever a list has a block for it or `sbrk(4096)` succeeds, if and only if `size` is at most
4094, or `sbrk(4096)` fails. -/
theorem malloc_serves_iff (base : Word) (hbase : base ≠ 0) (mem : Word → Word) (ops : List Op) (c : Client)
    (h : run Client.request (Client.init base mem) ops = some c) (size : Word) (h₁ : 1 ≤ size)
    (h₂ : size ≤ 4096) (grant : Bool) :
    c.Serves size grant ↔ size ≤ 4094 ∨ (contiguousSbrk grant c.toData pageSize).2 = -1 := by
  have hinv : c.Inv base :=
    run_invariant Client.request (fun _ _ _ hs hstep => hs.request hbase hstep) (Client.inv_init base mem) h
  by_cases hle : size ≤ 4094
  · exact iff_of_true (hinv.serves hbase h₁ hle grant) (Or.inl hle)
  · have hlo : 4094 < size.toNat := not_le.mp hle
    rw [Client.serves_large_iff hlo h₂]
    simp only [hle, false_or]

/-- After an allocation and a request that is refused, the largest size that is served. -/
theorem malloc_serves_largest :
    ∃ c, run Client.request (Client.init 0x1000 fun _ => 0) [.malloc 10 true, .malloc 5000 true] = some c ∧
      (c.Serves 4094 true ↔ (4094 : Word) ≤ 4094 ∨ (contiguousSbrk true c.toData pageSize).2 = -1) := by
  have hsome : (run Client.request (Client.init 0x1000 fun _ => 0)
      [.malloc 10 true, .malloc 5000 true]).isSome := by
    decide
  obtain ⟨c, hc⟩ := Option.isSome_iff_exists.mp hsome
  exact ⟨c, hc, malloc_serves_iff 0x1000 (by decide) _ _ c hc 4094 (by decide) (by decide) true⟩

/-- A request for a page is refused, though the system has one. -/
theorem not_serves_page :
    (contiguousSbrk true (Client.init 0x1000 fun _ => 0).toData pageSize).2 = 0x1000 ∧
      (malloc (contiguousSbrk true) (Client.init 0x1000 fun _ => 0).toData 4096).map Prod.snd = some 0 ∧
      ¬ (Client.init 0x1000 fun _ => 0).Serves 4096 true := by
  refine ⟨by decide, by decide, ?_⟩
  rw [Client.serves_large_iff (by decide) (by decide)]
  decide

end I80k.Libc

import I80k.Libc.MallocLayout

/-!
# The heap of the kernel

In the kernel image `malloc.c` runs over `brk.c`, whose `_brk` is the system call served by
`kernel/heap.c`. Both `malloc.c` and `heap.c` define a `heap`, and the linker merges the two
tentative definitions into one variable: the base of the blocks and the current break are the same
word. Every growth moves the break, and with it the base, so the first block begins where the heap
ends.

## Main definitions

* `Brk`: the break as `brk.c` remembers it, and the bounds of `heap.c`
* `heapInitialize`, `heapBrk`, `sbrk`: the functions of `heap.c` and `brk.c`
* `KernelClient`: the allocator of the kernel and the blocks it has handed out
* `Confined`: the blocks handed out lie between the start of the heap and its break

## Main results

* `kernel_heap_confined_iff`: the blocks stay confined while malloc has no request that it can serve,
  or no page to serve it from, and not longer
-/

namespace I80k.Kernel

open Libc DyadicTiling StepSystem

/-- The data of `brk.c` and of `heap.c`, `heap` apart. -/
structure Brk where
  /-- `char *_lib_brk`. -/
  libBrk : Word
  /-- `void *heap_base`. -/
  heapBase : Word
  /-- `void *heap_max`. -/
  heapMax : Word

/-- The data of the kernel image. The `heap` of `malloc.c` is also the `heap` of `heap.c`. -/
abbrev Image := Data Brk

/-- Prepares the heap for future allocations. -/
def heapInitialize (s : Image) (start limit : Word) : Image :=
  { s with brk := { s.brk with heapBase := start, heapMax := limit }, heap := start }

/-- Sets the break to `addr`, or returns it if `addr` is null. -/
def heapBrk (s : Image) (addr : Word) : Image × Word :=
  if addr = 0 then (s, s.heap)
  else if addr < s.brk.heapBase ∨ s.brk.heapMax < addr then (s, -1)
  else ({ s with heap := addr }, addr)

/-- `if (!_lib_brk) _lib_brk = _brk((void *)0);` -/
def initBrk (s : Image) : Image :=
  if s.brk.libBrk = 0 then { s with brk := { s.brk with libBrk := (heapBrk s 0).2 } } else s

/-- Moves the break by `increment` and returns the previous one, or `(void *)-1`. -/
def sbrk : Sbrk Brk := fun s increment =>
  let s := initBrk s
  let start := s.brk.libBrk
  let limit := start + increment
  let (s, newBrk) := heapBrk s limit
  if newBrk = -1 then (s, newBrk)
  else if newBrk < limit then (s, -1)
  else ({ s with brk := { s.brk with libBrk := newBrk } }, start)

/-- The kernel image, with the blocks handed out and not freed since: pointers, and the sizes asked
for. -/
structure KernelClient extends Image where
  live : List (Word × Word)

/-- What kernel code does with the allocator. -/
inductive HeapOp
  | malloc (size : Word)
  | free (ptr : Word)

/-- One call; `none` if it does not return, or if the pointer freed is neither null nor live. -/
def KernelClient.step (c : KernelClient) : HeapOp → Option KernelClient
  | .malloc size =>
    (Libc.malloc sbrk c.toData size).map fun (s, ptr) =>
      { s with live := if ptr = 0 then c.live else (ptr, size) :: c.live }
  | .free ptr =>
    if ptr = 0 ∨ ∃ b ∈ c.live, b.1 = ptr then
      (Libc.free c.toData ptr).map fun s => { s with live := c.live.eraseP fun b => b.1 = ptr }
    else none

/-- The kernel after `heap_initialize(start, limit)`, its `.bss` cleared. -/
def KernelClient.boot (start limit : Word) (mem : Word → Word) : KernelClient where
  toData := heapInitialize
    { heap := 0, heapSize := 0, fbTable := fun _ => 0, mem, brk := ⟨0, 0, 0⟩ } start limit
  live := []

/-- Every block handed out lies inside `[start, break)`, and the break is at most `limit`. -/
def Confined (start limit : Word) (c : KernelClient) : Prop :=
  ∀ b ∈ c.live, start ≤ b.1 - headerSize ∧
    (b.1 - headerSize).toNat + 2 ^ blockIndex b.2 ≤ c.heap.toNat ∧ c.heap ≤ limit

/-- The requests that `malloc` can serve: those whose size, with the header and modulo `2 ^ 16`, fits
in a page. -/
def Servable (size : Word) : Prop :=
  size ≠ 0 ∧ size + headerSize ≤ 4096

/-- The heap has room for one page: there `sbrk(4096)` does not return `(void *)-1`. At the top of
the address space the new break is null, which `heap_brk` takes for a question. -/
def HasPage (start limit : Word) : Prop :=
  start.toNat + 4096 = 2 ^ 16 ∨ start.toNat + 4096 ≤ limit.toNat ∧ start.toNat + 4096 ≠ 0xFFFF

/-- The condition on a call: it does not make `malloc` hand out a block. -/
def Idle (start limit : Word) (_ : KernelClient) : HeapOp → Prop
  | .malloc size => ¬ (Servable size ∧ HasPage start limit)
  | .free _ => True

/-! ## One call on an untouched heap -/

theorem popSmallest_of_empty {β : Type} {s : Data β} (h : ∀ i, s.fbTable i = 0) (n : ℕ) :
    ∀ i, popSmallest n s i = (s, 0, i + n) := by
  have hpop : ∀ i, fbPop s i = (s, 0) := fun i => by simp [fbPop, h i]
  induction n with
  | zero => exact fun i => by simp [popSmallest, hpop]
  | succ n ih =>
    intro i
    rw [popSmallest, hpop, if_pos rfl, ih (i + 1), show i + 1 + n = i + (n + 1) by omega]

theorem splitDown_heap {β : Type} (index : ℕ) (zone : Word) :
    ∀ (i : ℕ) (s : Data β), (splitDown index zone i s).heap = s.heap := by
  intro i
  induction i with
  | zero => exact fun _ => rfl
  | succ i ih =>
    intro s
    rw [splitDown]
    split_ifs
    · exact ih _
    · rfl

theorem carve_heap {β : Type} (s : Data β) (zone : Word) (i index : ℕ) (fullSize : Word) :
    (carve s zone i index fullSize).1.heap = s.heap :=
  splitDown_heap index zone i s

/-- The image while no block was handed out: the lists are empty, and the break is where it was set,
as far as `brk.c` knows it. -/
structure Untouched (start limit : Word) (s : Image) : Prop where
  lists : ∀ i, s.fbTable i = 0
  heapSize : s.heapSize = 0
  heapBase : s.brk.heapBase = start
  heapMax : s.brk.heapMax = limit
  break_eq : s.brk.libBrk = 0 ∧ s.heap = start ∨
    s.brk.libBrk = start ∧ (s.heap = start ∨ start.toNat + 4096 = 0xFFFF ∧ s.heap = 0xFFFF)

namespace Untouched

variable {start limit : Word} {s : Image}

theorem initBrk (h : Untouched start limit s) :
    Untouched start limit (initBrk s) ∧ (initBrk s).brk.libBrk = start ∧
      (initBrk s).heap = s.heap := by
  rw [Kernel.initBrk]
  split_ifs with h₀
  · have hs : s.heap = start := by
      rcases h.break_eq with ⟨-, hs⟩ | ⟨hb, hs | ⟨he, -⟩⟩
      · exact hs
      · exact hs
      · rw [← hb, h₀] at he
        exact absurd he (by decide)
    refine ⟨⟨h.lists, h.heapSize, h.heapBase, h.heapMax, Or.inr ⟨?_, Or.inl hs⟩⟩, ?_, rfl⟩
    · simpa [heapBrk] using hs
    · simpa [heapBrk] using hs
  · rcases h.break_eq with ⟨hb, -⟩ | ⟨hb, -⟩
    · exact absurd hb h₀
    · exact ⟨h, hb, rfl⟩

/-- `if (!heap) heap = sbrk(0);` changes nothing but what `brk.c` remembers. -/
theorem initHeap (h : Untouched start limit s) : Untouched start limit (Libc.initHeap sbrk s) := by
  rw [Libc.initHeap]
  split_ifs with h₀
  · obtain ⟨h', hb, hheap⟩ := h.initBrk
    have hs : start = 0 := by
      rcases h.break_eq with ⟨-, hs⟩ | ⟨-, hs | ⟨-, hs⟩⟩
      · exact hs.symm.trans h₀
      · exact hs.symm.trans h₀
      · rw [h₀] at hs
        exact absurd hs (by decide)
    have hsbrk : sbrk s 0 = (Kernel.initBrk s, 0) := by
      have hz : (Kernel.initBrk s).brk.libBrk = 0 := hb.trans hs
      have hbrk : heapBrk (Kernel.initBrk s) 0 = (Kernel.initBrk s, 0) := by
        rw [heapBrk, if_pos rfl, hheap, h₀]
      simp only [sbrk, hz, add_zero, hbrk]
      rw [if_neg (by decide), if_neg (by decide)]
      congr 1
      rw [← hz]
    rw [hsbrk]
    exact ⟨h'.lists, h'.heapSize, h'.heapBase, h'.heapMax, Or.inr ⟨hb, Or.inl hs.symm⟩⟩
  · exact h

/-- With a page to give, `sbrk(4096)` succeeds and touches neither the lists nor `heap_size`. -/
theorem sbrk_of_hasPage (h : Untouched start limit s) (hp : HasPage start limit) :
    (sbrk s pageSize).2 ≠ -1 ∧ (∀ i, (sbrk s pageSize).1.fbTable i = 0) ∧
      (sbrk s pageSize).1.heapSize = 0 ∧
      ((sbrk s pageSize).1.heap.toNat = start.toNat + 4096 ∨
        start.toNat + 4096 = 2 ^ 16 ∧ (sbrk s pageSize).1.heap = start) := by
  obtain ⟨h', hb, -⟩ := h.initBrk
  have hpage : pageSize.toNat = 4096 := rfl
  have hm : (-1 : Word).toNat = 65535 := rfl
  -- A start of 0xFFFF would look like a failure, but has no room for a page.
  have hstart : start ≠ -1 := by
    rintro rfl
    rcases hp with hp | ⟨hp, -⟩
    · omega
    · have := limit.isLt
      omega
  -- The end of the page is 0 in 16 bits, or it is checked against the limit.
  rcases hp with hp | ⟨hle, hne⟩
  · have hlim : start + pageSize = 0 := by
      apply BitVec.eq_of_toNat_eq
      rw [BitVec.toNat_add, hpage, hp]
      rfl
    have hheap : (Kernel.initBrk s).heap = start := by
      rcases h'.break_eq with ⟨-, hs⟩ | ⟨-, hs | ⟨he, -⟩⟩
      · exact hs
      · exact hs
      · omega
    have hz : ¬ start < 0 := by
      rw [BitVec.lt_def]
      exact Nat.not_lt_zero _
    simp only [sbrk, hb, hlim, heapBrk, if_true, hheap, if_neg hstart, if_neg hz]
    exact ⟨hstart, h'.lists, h'.heapSize, Or.inr ⟨hp, trivial⟩⟩
  · have hlt := limit.isLt
    have hlim : (start + pageSize).toNat = start.toNat + 4096 := by
      rw [BitVec.toNat_add, hpage]
      omega
    have h₀ : start + pageSize ≠ 0 := by
      intro he
      rw [he] at hlim
      simp at hlim
    -- The new break is inside, and is not taken for a failure.
    have h₁ : ¬ (start + pageSize < start ∨ limit < start + pageSize) := by
      rw [BitVec.lt_def, BitVec.lt_def]
      omega
    have h₂ : start + pageSize ≠ -1 := by
      intro he
      rw [he] at hlim
      omega
    simp only [sbrk, hb, heapBrk, if_neg h₀, h'.heapBase, h'.heapMax, if_neg h₁, if_neg h₂,
      if_neg (BitVec.lt_irrefl _)]
    exact ⟨hstart, h'.lists, h'.heapSize, Or.inl hlim⟩

/-- Without a page to give, `sbrk(4096)` fails. -/
theorem sbrk_of_not_hasPage (h : Untouched start limit s) (hp : ¬ HasPage start limit) :
    (sbrk s pageSize).2 = -1 ∧ Untouched start limit (sbrk s pageSize).1 := by
  obtain ⟨h', hb, -⟩ := h.initBrk
  have hpage : pageSize.toNat = 4096 := rfl
  rw [HasPage, not_or, not_and, not_not] at hp
  have h₀ : start + pageSize ≠ 0 := by
    intro he
    have := congrArg BitVec.toNat he
    rw [BitVec.toNat_add, hpage] at this
    have h0 : (0 : Word).toNat = 0 := rfl
    have := start.isLt
    omega
  -- The break is refused, or it is accepted at 0xFFFF and taken for a failure.
  by_cases h₁ : start + pageSize < start ∨ limit < start + pageSize
  · simp only [sbrk, hb, heapBrk, if_neg h₀, h'.heapBase, h'.heapMax, if_pos h₁, if_true]
    exact ⟨trivial, h'⟩
  · have hs := start.isLt
    have hl := limit.isLt
    rw [BitVec.lt_def, BitVec.lt_def, BitVec.toNat_add, hpage] at h₁
    have hend : start.toNat + 4096 = 0xFFFF := hp.2 (by omega)
    have h₂ : start + pageSize = -1 := by
      apply BitVec.eq_of_toNat_eq
      rw [BitVec.toNat_add, hpage, hend]
      rfl
    have h₃ : ¬ ((-1 : Word) < start ∨ limit < (-1 : Word)) := by
      rw [BitVec.lt_def, BitVec.lt_def, show (-1 : Word).toNat = 0xFFFF from rfl]
      omega
    simp only [sbrk, hb, heapBrk, h₂, if_neg (show (-1 : Word) ≠ 0 by decide), h'.heapBase,
      h'.heapMax, if_neg h₃, if_true]
    exact ⟨trivial, h'.lists, h'.heapSize, h'.heapBase, h'.heapMax,
      Or.inr ⟨hb, Or.inr ⟨hend, rfl⟩⟩⟩

end Untouched

/-! ## Runs -/

namespace KernelClient

variable {start limit : Word} {c c' : KernelClient}

/-- No block was handed out yet. -/
structure Fresh (start limit : Word) (c : KernelClient) : Prop where
  untouched : Untouched start limit c.toData
  live : c.live = []

theorem fresh_boot (start limit : Word) (mem : Word → Word) :
    Fresh start limit (boot start limit mem) :=
  ⟨⟨fun _ => rfl, rfl, rfl, rfl, Or.inl ⟨rfl, rfl⟩⟩, rfl⟩

theorem Fresh.confined (h : Fresh start limit c) : Confined start limit c := by
  intro b hb
  rw [h.live] at hb
  exact (List.not_mem_nil hb).elim

/-- A call that `malloc` does not serve leaves the heap without blocks. -/
theorem Fresh.step (h : Fresh start limit c) {op : HeapOp} (ho : Idle start limit c op)
    (hs : c.step op = some c') : Fresh start limit c' := by
  cases op with
  | free ptr =>
    rw [KernelClient.step, h.live] at hs
    split_ifs at hs with hp
    -- There is nothing to free but the null pointer.
    have h₀ : ptr = 0 := by simpa using hp
    subst h₀
    simp only [Libc.free, if_true, Option.map_some, Option.some.injEq] at hs
    subst hs
    exact ⟨h.untouched, by simp [List.eraseP]⟩
  | malloc size =>
    obtain ⟨⟨s', ptr⟩, hm, rfl⟩ := Option.map_eq_some_iff.mp hs
    suffices hsuf : ptr = 0 ∧ Untouched start limit s' by
      obtain ⟨rfl, hu⟩ := hsuf
      exact ⟨hu, h.live⟩
    by_cases h₀ : size = 0
    · rw [Libc.malloc, if_pos h₀] at hm
      obtain ⟨rfl, rfl⟩ := Prod.mk.inj (Option.some.inj hm)
      exact ⟨rfl, h.untouched⟩
    · have hu := h.untouched.initHeap
      -- A request that fits needs a page, and there is none; others are refused.
      by_cases hle : size + headerSize ≤ 4096
      · have hp : ¬ HasPage start limit := fun hp => ho ⟨⟨h₀, hle⟩, hp⟩
        obtain ⟨hidx, -, hmax, -⟩ := blockIndex_of_le hle
        obtain ⟨hfail, hu'⟩ := hu.sbrk_of_not_hasPage hp
        rw [malloc_of_sbrk h₀ hidx hmax (popSmallest_of_empty hu.lists _ _), if_pos hfail] at hm
        obtain ⟨rfl, rfl⟩ := Prod.mk.inj (Option.some.inj hm)
        exact ⟨rfl, hu'⟩
      · have hgt : 4096 < (size + headerSize).toNat := not_le.mp hle
        simp only [Libc.malloc, if_neg h₀] at hm
        obtain ⟨i, hi, hm⟩ := Option.bind_eq_some_iff.mp hm
        rw [if_pos (maxIndex_lt_of_getindex hgt hi)] at hm
        obtain ⟨rfl, rfl⟩ := Prod.mk.inj (Option.some.inj hm)
        exact ⟨rfl, hu⟩

/-- **The first block begins at the break.** A request that `malloc` serves on a heap without blocks
gets memory outside of the heap. -/
theorem Fresh.not_confined (h : Fresh start limit c) {size : Word} (hs : Servable size)
    (hp : HasPage start limit) (hne : start.toNat + 4096 ≠ 0xFFFE) :
    ∃ c', c.step (.malloc size) = some c' ∧ ¬ Confined start limit c' := by
  have hu := h.untouched.initHeap
  obtain ⟨hidx, -, hmax, -⟩ := blockIndex_of_le hs.2
  obtain ⟨hok, -, hsize, hheap⟩ := hu.sbrk_of_hasPage hp
  -- `heap` was the start and is the break now: the block is put there.
  set t := (sbrk (Libc.initHeap sbrk c.toData) pageSize).1 with ht
  have hmalloc := malloc_of_sbrk hs.1 hidx hmax (popSmallest_of_empty hu.lists _ _)
  rw [if_neg hok, ← ht, hsize, add_zero] at hmalloc
  have hheap' := carve_heap { t with heapSize := 0 + pageSize } t.heap maxIndex (blockIndex size)
    (size + headerSize)
  -- The pointer that is handed out is not null.
  have hzone : t.heap + headerSize ≠ 0 := by
    intro h₀
    have h₁ := congrArg BitVec.toNat h₀
    rw [BitVec.toNat_add, show headerSize.toNat = 2 from rfl, show (0 : Word).toNat = 0 from rfl] at h₁
    have h₂ := t.heap.isLt
    rcases hheap with hh | ⟨he, hh⟩
    · omega
    · rw [hh] at h₁
      omega
  have hptr : (carve { t with heapSize := 0 + pageSize } t.heap maxIndex (blockIndex size)
    (size + headerSize)).2 = t.heap + headerSize := rfl
  generalize carve { t with heapSize := 0 + pageSize } t.heap maxIndex (blockIndex size)
    (size + headerSize) = r at hmalloc hheap' hptr
  obtain ⟨t', ptr⟩ := r
  dsimp only at hheap' hptr
  subst hptr
  refine ⟨{ t' with live := (t.heap + headerSize, size) :: c.live }, ?_, fun hc => ?_⟩
  · rw [KernelClient.step, hmalloc, Option.map_some]
    dsimp only
    rw [if_neg hzone]
  · -- The block would have to end at the break that it starts at.
    have hb := (hc _ List.mem_cons_self).2.1
    dsimp only at hb
    rw [add_sub_cancel_right, hheap'] at hb
    have : 0 < 2 ^ blockIndex size := by positivity
    omega

end KernelClient

/-- **Confinement of the kernel heap, exactly.** For every `start` and `limit` given to
`heap_initialize` and every run of calls: while no call makes a request that `malloc` can serve with
room for a page, every block handed out lies inside `[start, break)`; and with the first such call
that is over, unless the block would begin at `0xFFFE` and its pointer be null. -/
theorem kernel_heap_confined_iff (start limit : Word) (mem : Word → Word) (ops : List HeapOp) :
    (Steps KernelClient.step (Idle start limit) (KernelClient.boot start limit mem) ops →
      Always KernelClient.step (Confined start limit) (KernelClient.boot start limit mem) ops) ∧
    (start.toNat + 4096 ≠ 0xFFFE →
      Always KernelClient.step (Confined start limit) (KernelClient.boot start limit mem) ops →
      Steps KernelClient.step (Idle start limit) (KernelClient.boot start limit mem) ops) := by
  have hboot := KernelClient.fresh_boot start limit mem
  refine ⟨fun h => ?_, fun hne => ?_⟩
  · have hfresh : Always KernelClient.step (KernelClient.Fresh start limit) _ ops :=
      always_of_steps (fun _ _ _ hf hi hs => hf.step hi hs) hboot h
    exact hfresh.imp fun _ hf => hf.confined
  · refine (always_iff_steps (I := KernelClient.Fresh start limit) (fun c op c' hf _ hi hs => ?_)
      (fun c op hf _ hi => ?_) hboot hboot.confined).mp
    · have := hf.step hi hs
      exact ⟨this, this.confined⟩
    · cases op with
      | free ptr => exact absurd trivial hi
      | malloc size =>
        obtain ⟨hsv, hp⟩ := not_not.mp hi
        exact hf.not_confined hsv hp hne

/-- On the boards, whose heap ends under the stack at `0xF000`, the first block handed out begins at
the break. -/
theorem not_always_confined_malloc :
    ¬ Always KernelClient.step (Confined 0x5000 0xF000)
      (KernelClient.boot 0x5000 0xF000 fun _ => 0) [.malloc 16] := by
  intro h
  have hs : (KernelClient.step (KernelClient.boot 0x5000 0xF000 fun _ => 0) (.malloc 16)).map
      (fun c => (c.heap, c.live)) = some (0x6000, [(0x6002, 16)]) := by decide
  obtain ⟨c, hc, hl⟩ := Option.map_eq_some_iff.mp hs
  obtain ⟨hheap, hlive⟩ := Prod.mk.inj hl
  have hconf := h.last (show run KernelClient.step _ [HeapOp.malloc 16] = some c by
    rw [run_cons, hc]; rfl)
  have hb := (hconf (0x6002, 16) (by rw [hlive]; exact List.mem_cons_self)).2.1
  rw [hheap] at hb
  exact absurd hb (by decide)

end I80k.Kernel

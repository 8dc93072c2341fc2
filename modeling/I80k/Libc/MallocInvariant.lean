import I80k.Libc.MallocLayout

/-!
# The buddy heap over whole runs

`malloc` and `free` keep the layout of the heap, whatever the system answers to `sbrk`, and they
return. The header `int heap_size` counts the bytes of the heap only while there are fewer than
`2 ^ 15` of them: the eighth page makes it negative.

## Main definitions

* `Client.BuddyHeap c fb extent`: the lists `fb` and the live blocks are a buddy heap of `extent`
  bytes

## Main results

* `splitDown_spec`, `mergeUp_spec`: the loops of `malloc` and `free` keep the layout
* `Client.Inv.step`: so does every operation of a client
* `malloc_buddy_heap`: in every run the blocks are a buddy heap of the bytes obtained from `sbrk`;
  of `heap_size` bytes exactly while at most seven pages were obtained
-/

namespace I80k.Libc

open DyadicTiling LinkedChain StepSystem

variable {base : Word} {s : Data ℕ} {fb : ℕ → List ℕ} {used : List Block} {o i : ℕ}

namespace Layout

/-- The first words of two used blocks are distinct. -/
theorem used_addr_ne {b c : Block} (h : Layout base s fb (c :: used)) (hb : b ∈ used) :
    addr base b.offset ≠ addr base c.offset := by
  intro he
  have h₁ := h.offset_lt (List.mem_append_left _ (List.mem_cons_of_mem c hb))
  have h₂ := h.offset_lt (b := c) (List.mem_append_left _ List.mem_cons_self)
  have ho : b.offset = c.offset := addr_inj (by omega) (by omega) he
  have hd := h.tiles.disjoint_head (List.mem_append_left _ hb)
  exact hd _ c.offset_mem (ho ▸ b.offset_mem)

/-- The heap grows by one page, which goes in use. -/
theorem grow (h : Layout base s fb used) (hle : s.brk + 2 ^ maxIndex ≤ 2 ^ 16) :
    Layout base { s with heapSize := s.heapSize + pageSize, brk := s.brk + 2 ^ maxIndex } fb
      (⟨s.brk - base.toNat, maxIndex⟩ :: used) := by
  have hN : s.brk + 2 ^ maxIndex - base.toNat = s.brk - base.toNat + 2 ^ maxIndex :=
    Nat.sub_add_comm h.base_le
  refine ⟨h.heap, h.base_le.trans (Nat.le_add_right _ _), hle, ?_, ?_, h.chain, h.listed, fun b hb' => ?_, ?_,
    h.coalesced⟩
  · dsimp only
    rw [hN]
    exact h.pages.add (dvd_refl _)
  · dsimp only
    rw [hN, h.heapSize, BitVec.ofNat_add]
    rfl
  · rcases List.mem_cons.mp hb' with rfl | hb'
    · exact ⟨show 3 ≤ maxIndex by decide, le_rfl, h.pages⟩
    · exact h.shape b hb'
  · dsimp only
    rw [hN]
    exact h.tiles.grow

end Layout

/-! ## The loops of `malloc` -/

theorem fbPop_of_nil (h : Layout base s fb used) (hi : fb i = []) : fbPop s i = (s, 0) := by
  have hc := h.chain i
  rw [hi] at hc
  have h₀ : s.fbTable i = 0 := hc
  simp [fbPop, h₀]

theorem fbPop_of_cons (h : Layout base s fb used) {os : List ℕ} (hi : fb i = o :: os) :
    (fbPop s i).2 = addr base o ∧ addr base o ≠ 0 ∧ (fbPop s i).1.mem = s.mem ∧
      Layout base (fbPop s i).1 (Function.update fb i ((fb i).erase o)) (⟨o, i⟩ :: used) := by
  have hc := h.chain i
  rw [hi] at hc
  obtain ⟨hhead, hne, hc⟩ := hc
  have hpop : fbPop s i =
      ({ s with fbTable := Function.update s.fbTable i (s.mem (addr base o)) }, addr base o) := by
    simp only [fbPop, hhead, if_pos hne]
  rw [hpop]
  refine ⟨rfl, hne, rfl, h.take (by rw [hi]; exact List.mem_cons_self) rfl rfl rfl ?_ ?_⟩
  · dsimp only
    rw [hi, List.erase_cons_head, Function.update_self]
    exact hc
  · intro j hj
    dsimp only
    rw [Function.update_of_ne hj]
    exact h.chain j

/-- The search finds a free block of the least index, which goes in use, or there is none. -/
theorem popSmallest_spec (h : Layout base s fb used) (n : ℕ) :
    ∀ i, i + n = maxIndex →
      ((popSmallest n s i).2.1 = 0 ∧ (popSmallest n s i).1 = s) ∨
      ∃ fb' o, (popSmallest n s i).2.1 = addr base o ∧ addr base o ≠ 0 ∧
        i ≤ (popSmallest n s i).2.2 ∧ (popSmallest n s i).1.mem = s.mem ∧
        Layout base (popSmallest n s i).1 fb' (⟨o, (popSmallest n s i).2.2⟩ :: used) := by
  -- Up the lists, from `i` to the last one.
  induction n with
  | zero =>
    intro i _
    cases hi : fb i with
    | nil => exact Or.inl (by simp [popSmallest, fbPop_of_nil h hi])
    | cons o os =>
      obtain ⟨h₁, h₂, h₃, h₄⟩ := fbPop_of_cons h hi
      exact Or.inr ⟨_, o, h₁, h₂, le_rfl, h₃, h₄⟩
  | succ n ih =>
    intro i hn
    cases hi : fb i with
    | nil =>
      have hpop : popSmallest (n + 1) s i = popSmallest n s (i + 1) := by
        simp [popSmallest, fbPop_of_nil h hi]
      rw [hpop]
      refine (ih (i + 1) (by omega)).imp_right ?_
      rintro ⟨fb', o, h₁, h₂, h₃, h₄⟩
      exact ⟨fb', o, h₁, h₂, by omega, h₄⟩
    | cons o os =>
      obtain ⟨h₁, h₂, h₃, h₄⟩ := fbPop_of_cons h hi
      have hpop : popSmallest (n + 1) s i = ((fbPop s i).1, (fbPop s i).2, i) := by
        simp only [popSmallest, if_neg (h₁ ▸ h₂)]
      rw [hpop]
      exact Or.inr ⟨_, o, h₁, h₂, le_rfl, h₃, h₄⟩

/-- The block in use is cut down to `index`, its other halves going to the lists. -/
theorem splitDown_spec (hbase : base ≠ 0) {index : ℕ} (hindex : 3 ≤ index) :
    ∀ (i : ℕ) {s : Data ℕ} {fb : ℕ → List ℕ}, index ≤ i → Layout base s fb (⟨o, i⟩ :: used) →
      ∃ fb', Layout base (splitDown index (addr base o) i s) fb' (⟨o, index⟩ :: used) ∧
        ∀ b ∈ used, (splitDown index (addr base o) i s).mem (addr base b.offset) =
          s.mem (addr base b.offset) := by
  intro i
  induction i with
  | zero =>
    intro s fb hle h
    omega
  | succ i ih =>
    intro s fb hle h
    by_cases hlt : index < i + 1
    · obtain ⟨-, hi, hal⟩ := h.shape ⟨o, i + 1⟩ (List.mem_append_left _ List.mem_cons_self)
      dsimp only at hi
      have hsplit := h.split (by omega)
      have heven : (Block.buddy ⟨o, i⟩).offset = o + 2 ^ i := buddy_of_even hal
      have hbuddy : Block.buddy ⟨o + 2 ^ i, i⟩ = ⟨o, i⟩ := by
        rw [← heven]
        exact buddy_buddy ⟨o, i⟩
      -- The kept half is in use, so the other one may go to its list.
      have hnot : Block.buddy ⟨o + 2 ^ i, i⟩ ∉ freeBlocks fb := by
        rw [hbuddy]
        intro hm
        exact hsplit.disjoint (List.mem_cons_of_mem _ List.mem_cons_self) hm o
          (Block.offset_mem ⟨o, i⟩) (Block.offset_mem ⟨o, i⟩)
      have hadd := hsplit.add hbase (Or.inr hnot)
      obtain ⟨fb', h', hmem⟩ := ih (by omega) hadd
      have hstep : splitDown index (addr base o) (i + 1) s =
          splitDown index (addr base o) i (fbAdd s i (addr base (o + 2 ^ i))) := by
        rw [splitDown, if_pos hlt, getbuddy_addr h.heap (by omega), heven]
      rw [hstep]
      refine ⟨fb', h', fun b hb => (hmem b hb).trans (Function.update_of_ne ?_ _ _)⟩
      exact hsplit.used_addr_ne (List.mem_cons_of_mem _ hb)
    · obtain rfl : index = i + 1 := by omega
      refine ⟨fb, ?_, fun b _ => ?_⟩
      all_goals rw [splitDown, if_neg hlt]
      exact h

/-- The block is cut down and gets its header. -/
theorem carve_spec (hbase : base ≠ 0) {index : ℕ} (hindex : 3 ≤ index) (hle : index ≤ i)
    (h : Layout base s fb (⟨o, i⟩ :: used)) (fullSize : Word) :
    ∃ fb', Layout base (carve s (addr base o) i index fullSize).1 fb' (⟨o, index⟩ :: used) ∧
      (carve s (addr base o) i index fullSize).1.mem (addr base o) = fullSize ∧
      ∀ b ∈ used, (carve s (addr base o) i index fullSize).1.mem (addr base b.offset) =
        s.mem (addr base b.offset) := by
  obtain ⟨fb', h', hmem⟩ := splitDown_spec hbase hindex i hle h
  refine ⟨fb', h'.frame fun j a ha => Function.update_of_ne ?_ _ _, Function.update_self _ _ _,
    fun b hb => (Function.update_of_ne ?_ _ _).trans (hmem b hb)⟩
  · exact h'.addr_ne (b := ⟨o, index⟩) List.mem_cons_self ha
  · exact h'.used_addr_ne hb

/-! ## The loop of `free` -/

theorem map_erase_of_injOn {α γ : Type} [DecidableEq α] [DecidableEq γ] {f : α → γ} {a : α} :
    ∀ {l : List α}, (∀ x ∈ l, f x = f a → x = a) → (l.map f).erase (f a) = (l.erase a).map f
  | [], _ => rfl
  | x :: l, h => by
    by_cases hx : x = a
    · subst hx
      simp
    · have hfx : f x ≠ f a := fun he => hx (h x List.mem_cons_self he)
      rw [List.map_cons, List.erase_cons_tail (by simpa using hfx),
        List.erase_cons_tail (by simpa using hx), List.map_cons,
        map_erase_of_injOn fun y hy => h y (List.mem_cons_of_mem _ hy)]

/-- The block in use absorbs its buddy as long as that is free. -/
theorem mergeUp_spec (hbase : base ≠ 0) (n : ℕ) :
    ∀ {i o : ℕ} {s : Data ℕ} {fb : ℕ → List ℕ}, i + n = maxIndex →
      Layout base s fb (⟨o, i⟩ :: used) →
      ∃ s' fb' o' i', mergeUp n s i (addr base o) (getbuddy s i (addr base o)) =
          some (s', i', addr base o') ∧
        Layout base s' fb' (⟨o', i'⟩ :: used) ∧
        (i' = maxIndex ∨ Block.buddy ⟨o', i'⟩ ∉ freeBlocks fb') ∧
        ∀ b ∈ used, s'.mem (addr base b.offset) = s.mem (addr base b.offset) := by
  induction n with
  | zero =>
    intro i o s fb hn h
    exact ⟨s, fb, o, i, rfl, h, Or.inl hn, fun _ _ => rfl⟩
  | succ n ih =>
    intro i o s fb hn h
    have hu : (⟨o, i⟩ : Block) ∈ (⟨o, i⟩ : Block) :: used := List.mem_cons_self
    obtain ⟨-, -, hal⟩ := h.shape ⟨o, i⟩ (List.mem_append_left _ hu)
    have hb := h.base_le
    have hbrk := h.brk_le
    have ho : base.toNat + o < s.brk := h.lt_brk (List.mem_append_left _ hu) (Block.offset_mem ⟨o, i⟩)
    set u := (Block.buddy ⟨o, i⟩).offset with hudef
    have hult : u < s.brk - base.toNat :=
      buddy_lt hal ((pow_dvd_pow 2 (by dsimp only; omega)).trans h.pages) (by dsimp only; omega)
    rw [getbuddy_addr h.heap (by omega)]
    by_cases hm : u ∈ fb i
    · obtain ⟨s', hrem, ⟨hheap, hsize, hbrk'⟩, hchain, htable, hframe⟩ :=
        fbRemove_of_mem (h.chain i) (h.nodup_addr i) (List.mem_map_of_mem hm)
      rw [map_erase_of_injOn fun x hx he => addr_inj
        (by have := h.free_lt hx; omega) (by omega) he] at hchain
      have htake := h.take hm hheap hsize hbrk' hchain fun j hj => by
        rw [htable j hj]
        refine (h.chain j).congr fun x hx => hframe x ?_
        obtain ⟨a, ha, rfl⟩ := List.mem_map.mp hx
        exact h.addr_not_mem hj.symm ha
      have hmerge := htake.merge (by omega)
      obtain ⟨s'', fb'', o'', i'', hrec, h'', hbud, hmem⟩ := ih (by omega) hmerge
      -- Without wrap-around the lower of the two addresses is that of the lower offset.
      have hmin : (if addr base o ≤ addr base u then addr base o else addr base u) =
          addr base (min o u) := by
        have h₁ : (addr base o).toNat = base.toNat + o := toNat_addr (by omega)
        have h₂ : (addr base u).toNat = base.toNat + u := toNat_addr (by omega)
        by_cases hle : o ≤ u
        · rw [if_pos (by rw [BitVec.le_def]; omega), min_eq_left hle]
        · rw [if_neg (by rw [BitVec.le_def]; omega), min_eq_right (by omega)]
      refine ⟨s'', fb'', o'', i'', ?_, h'', hbud, fun b hb => (hmem b hb).trans (hframe _ ?_)⟩
      · simp only [mergeUp, ← hudef, hrem, Option.bind_some, if_true, hmin]
        exact hrec
      · intro hx
        obtain ⟨a, ha, he⟩ := List.mem_map.mp hx
        exact h.addr_ne (List.mem_cons_of_mem _ hb) ha he
    · have hnm : addr base u ∉ (fb i).map (addr base) := by
        intro hx
        obtain ⟨a, ha, he⟩ := List.mem_map.mp hx
        have := h.free_lt ha
        exact hm (addr_inj (by omega) (by omega) he ▸ ha)
      refine ⟨s, fb, o, i, ?_, h, Or.inr fun hf => hm (mem_freeBlocks.mp hf).2, fun _ _ => rfl⟩
      simp only [mergeUp, ← hudef, fbRemove_of_not_mem (h.chain i) (h.nodup_addr i) hnm
        (addr_ne_zero hbase (by omega)), Option.bind_some]
      rfl

/-- A block that absorbs others does not get smaller. -/
theorem mergeUp_le {β : Type} {s' : Data β} {i' : ℕ} {zone' : Word} (n : ℕ) :
    ∀ {s : Data β} {i : ℕ} {zone buddy : Word}, mergeUp n s i zone buddy = some (s', i', zone') → i ≤ i' := by
  induction n with
  | zero =>
    intro s i zone buddy h
    obtain ⟨-, rfl, -⟩ : s = s' ∧ i = i' ∧ zone = zone' := by simpa [mergeUp] using h
    exact le_rfl
  | succ n ih =>
    intro s i zone buddy h
    rw [mergeUp] at h
    obtain ⟨⟨s₁, removed⟩, -, h⟩ := Option.bind_eq_some_iff.mp h
    cases removed with
    | true => exact (Nat.le_succ i).trans (ih h)
    | false =>
      obtain ⟨-, rfl, -⟩ : s₁ = s' ∧ i = i' ∧ zone = zone' := by simpa using h
      exact le_rfl

/-! ## The calls -/

/-- The block of a live pointer, from the size it was asked for. -/
def liveBlock (base : Word) (b : Word × Word) : Block :=
  ⟨(b.1 - headerSize - base).toNat, blockIndex b.2⟩

@[simp] theorem addr_liveBlock (b : Word × Word) :
    addr base (liveBlock base b).offset = b.1 - headerSize := addr_sub _

/-- A block ends within the address space, so the pointer into it is not null. -/
theorem Layout.toNat_ptr (h : Layout base s fb used) {b : Block} (hb : b ∈ used ++ freeBlocks fb) :
    (addr base b.offset + headerSize).toNat = base.toNat + b.offset + 2 := by
  obtain ⟨h3, -, -⟩ := h.shape b hb
  have hpow : 2 ^ 3 ≤ 2 ^ b.index := Nat.pow_le_pow_right (by norm_num) h3
  have hlast : b.offset + 2 ^ b.index - 1 ∈ b := ⟨by omega, by omega⟩
  have h₁ := h.lt_brk hb hlast
  have h₂ := h.brk_le
  rw [BitVec.toNat_add, toNat_addr (by omega), show headerSize.toNat = 2 from rfl]
  omega

theorem initHeap_of_heap (hbase : base ≠ 0) (sbrk : Sbrk ℕ) (hs : s.heap = base) :
    initHeap sbrk s = s := by
  rw [initHeap, hs, if_neg hbase]

/-- What a request that was served leaves behind: a non-null pointer to a block in use, its header
written, and the headers of the other blocks as they were. -/
structure Served (base : Word) (s : Data ℕ) (used : List Block) (size : Word) (s' : Data ℕ)
    (ptr : Word) : Prop where
  ne_null : ptr ≠ 0
  layout : ∃ fb, Layout base s' fb (liveBlock base (ptr, size) :: used)
  header : s'.mem (ptr - headerSize) = size + headerSize
  frame : ∀ b ∈ used, s'.mem (addr base b.offset) = s.mem (addr base b.offset)

theorem carve_served (hbase : base ≠ 0) {s' : Data ℕ} {size : Word} (hsize : size ≤ 4094)
    (hmem : s'.mem = s.mem) (hle : blockIndex size ≤ i) (h : Layout base s' fb (⟨o, i⟩ :: used)) :
    Served base s used size (carve s' (addr base o) i (blockIndex size) (size + headerSize)).1
      (addr base o + headerSize) := by
  obtain ⟨-, h3, -, -⟩ := blockIndex_spec hsize
  obtain ⟨fb', h', hhead, hframe⟩ := carve_spec hbase h3 hle h (size + headerSize)
  have hu : (⟨o, blockIndex size⟩ : Block) ∈ (⟨o, blockIndex size⟩ : Block) :: used :=
    List.mem_cons_self
  have ho : base.toNat + o < 2 ^ 16 := h'.offset_lt (List.mem_append_left _ hu)
  refine ⟨fun h₀ => ?_, ⟨fb', ?_⟩, ?_, fun b hb => (hframe b hb).trans (congrFun hmem _)⟩
  · have := h'.toNat_ptr (List.mem_append_left _ hu)
    dsimp only at this
    rw [h₀] at this
    simp at this
  · rwa [liveBlock, add_sub_cancel_right, sub_addr (by omega)]
  · rwa [add_sub_cancel_right]

/-- **`malloc`** returns: null and nothing changed, or a pointer to a new block, whose memory was
free or comes from the system. -/
theorem malloc_spec (hbase : base ≠ 0) (h : Layout base s fb used) {size : Word}
    (h₁ : 1 ≤ size) (h₂ : size ≤ 4094) (grant : Bool) :
    ∃ s' ptr, malloc (contiguousSbrk grant) s size = some (s', ptr) ∧
      ((ptr = 0 ∧ s' = s) ∨ Served base s used size s' ptr) := by
  obtain ⟨hidx, -, hmax, -⟩ := blockIndex_spec h₂
  have hs₀ : size ≠ 0 := by
    rintro rfl
    exact absurd h₁ (by decide)
  have hinit := initHeap_of_heap hbase (contiguousSbrk grant) h.heap
  -- A free block that is large enough, or a new page.
  obtain ⟨s', zone, i, hp⟩ : ∃ s' zone i,
      popSmallest (maxIndex - blockIndex size) s (blockIndex size) = (s', zone, i) := ⟨_, _, _, rfl⟩
  have hspec := popSmallest_spec h (maxIndex - blockIndex size) (blockIndex size) (by omega)
  rw [hp] at hspec
  dsimp only at hspec
  rcases hspec with ⟨rfl, rfl⟩ | ⟨fb', o, rfl, hne, hle, hmem, h'⟩
  · rw [malloc_of_sbrk hs₀ hidx hmax (by rw [hinit, hp])]
    by_cases hg : grant = true ∧ s'.brk + pageSize.toNat ≤ 2 ^ 16
    · have hsbrk : contiguousSbrk grant s' pageSize =
          ({ s' with brk := s'.brk + pageSize.toNat }, BitVec.ofNat 16 s'.brk) := by
        rw [contiguousSbrk, if_neg (by decide), if_pos hg]
      -- The old break has a page above it, so it is not taken for a failure.
      have hne : BitVec.ofNat 16 s'.brk ≠ -1 := by
        intro he
        have := congrArg BitVec.toNat he
        have hp : pageSize.toNat = 4096 := rfl
        rw [BitVec.toNat_ofNat, Nat.mod_eq_of_lt (by omega)] at this
        have hm : (-1 : Word).toNat = 65535 := rfl
        omega
      have hgrow := h.grow hg.2
      have hzone : s'.heap + s'.heapSize = addr base (s'.brk - base.toNat) := by
        rw [h.heap, h.heapSize, addr]
      simp only [hsbrk, if_neg hne, hzone]
      exact ⟨_, _, rfl, Or.inr (carve_served hbase h₂ rfl hmax hgrow)⟩
    · have hsbrk : contiguousSbrk grant s' pageSize = (s', -1) := by
        rw [contiguousSbrk, if_neg (by decide), if_neg hg]
      simp only [hsbrk, if_true]
      exact ⟨s', 0, rfl, Or.inl ⟨rfl, rfl⟩⟩
  · rw [malloc_of_pop hs₀ hidx hmax (by rw [hinit, hp]) hne]
    exact ⟨_, _, rfl, Or.inr (carve_served hbase h₂ hmem hle h')⟩

/-- **`free`** returns, and the block of the pointer has gone to the lists, alone or in a larger one. -/
theorem free_spec (hbase : base ≠ 0) {b : Word × Word}
    (h : Layout base s fb (liveBlock base b :: used)) (hsize : b.2 ≤ 4094)
    (hhead : s.mem (b.1 - headerSize) = b.2 + headerSize) :
    ∃ s', free s b.1 = some s' ∧ (∃ fb', Layout base s' fb' used) ∧
      (∃ i, blockIndex b.2 ≤ i ∧ i ≤ maxIndex ∧ s'.fbTable i ≠ 0) ∧
      ∀ c ∈ used, s'.mem (addr base c.offset) = s.mem (addr base c.offset) := by
  obtain ⟨hidx, -, hmax, -⟩ := blockIndex_spec hsize
  have hne : b.1 ≠ 0 := by
    intro h₀
    have := h.toNat_ptr (b := liveBlock base b) (List.mem_append_left _ List.mem_cons_self)
    rw [addr_liveBlock, sub_add_cancel, h₀] at this
    simp at this
  obtain ⟨s', fb', o', i', hmerge, h', hbud, hframe⟩ :=
    mergeUp_spec hbase (maxIndex - blockIndex b.2) (by omega) h
  have haddr : addr base (b.1 - headerSize - base).toNat = b.1 - headerSize := addr_sub _
  rw [haddr] at hmerge
  have hmem : (⟨o', i'⟩ : Block) ∈ (⟨o', i'⟩ :: used) ++ freeBlocks fb' :=
    List.mem_append_left _ List.mem_cons_self
  have hhead' : (fbAdd s' i' (addr base o')).fbTable i' = addr base o' := Function.update_self ..
  refine ⟨fbAdd s' i' (addr base o'), ?_, ⟨_, h'.add hbase hbud⟩, ⟨i', mergeUp_le _ hmerge, ?_, ?_⟩,
    fun c hc => ?_⟩
  · simp only [free, if_neg hne, hhead, hidx, Option.bind_some, hmerge, Option.map_some]
  · exact (h'.shape _ hmem).2.1
  · rw [hhead']
    exact addr_ne_zero hbase (h'.offset_lt hmem)
  · exact (Function.update_of_ne (h'.used_addr_ne hc) _ _).trans (hframe c hc)

/-! ## Runs of a client -/

namespace Client

/-- What every operation keeps: before the first allocation the heap is empty at the break, and
after it the live blocks are in use, with their sizes in their headers. -/
structure Inv (base : Word) (c : Client) : Prop where
  started : c.heap = base ∨ c.heap = 0 ∧ c.brk = base.toNat
  layout : ∃ fb, Layout base { c.toData with heap := base } fb (c.live.map (liveBlock base))
  sizes : ∀ b ∈ c.live, b.2 ≤ 4094
  headers : ∀ b ∈ c.live, c.mem (b.1 - headerSize) = b.2 + headerSize

theorem inv_init (base : Word) (mem : Word → Word) : Inv base (init base mem) := by
  refine ⟨Or.inr ⟨rfl, rfl⟩, ⟨fun _ => [], ?_⟩, fun b hb => (List.not_mem_nil hb).elim,
    fun b hb => (List.not_mem_nil hb).elim⟩
  have hfree : freeBlocks (fun _ => []) = [] := by simp [freeBlocks]
  refine ⟨rfl, le_rfl, base.isLt.le, by simp [init], by simp [init], fun _ => rfl, fun _ _ => rfl,
    fun b hb => ?_, ?_, fun b hb => ?_⟩
  · rw [hfree] at hb
    exact (List.not_mem_nil hb).elim
  · rw [hfree]
    simpa [init] using tiles_nil
  · rw [hfree] at hb
    exact (List.not_mem_nil hb).elim

variable {c : Client}

/-- A client that holds a block has started the heap. -/
theorem Inv.heap_eq (h : Inv base c) {b : Word × Word} (hb : b ∈ c.live) : c.heap = base := by
  rcases h.started with hs | ⟨-, hs⟩
  · exact hs
  · obtain ⟨fb, hl⟩ := h.layout
    have := hl.lt_brk (List.mem_append_left _ (List.mem_map_of_mem hb)) (Block.offset_mem _)
    dsimp only at this
    omega

theorem initHeap_eq (hbase : base ≠ 0) (h : Inv base c) (grant : Bool) :
    initHeap (contiguousSbrk grant) c.toData = { c.toData with heap := base } := by
  rcases h.started with hs | ⟨hs, hb⟩
  · rw [initHeap_of_heap hbase _ hs, ← hs]
  · rw [initHeap, if_pos hs]
    simp only [contiguousSbrk, if_true, hb, BitVec.ofNat_toNat, BitVec.setWidth_eq]

theorem malloc_eq (hbase : base ≠ 0) (h : Inv base c) (grant : Bool) (size : Word) (h₀ : size ≠ 0) :
    Libc.malloc (contiguousSbrk grant) c.toData size =
      Libc.malloc (contiguousSbrk grant) { c.toData with heap := base } size := by
  rw [Libc.malloc, Libc.malloc, if_neg h₀, if_neg h₀, initHeap_eq hbase h,
    initHeap_of_heap hbase _ rfl]

theorem Inv.malloc (hbase : base ≠ 0) (h : Inv base c) {size : Word} (h₁ : 1 ≤ size)
    (h₂ : size ≤ 4094) (grant : Bool) :
    ∃ c', c.exec (.malloc size grant) = some c' ∧ Inv base c' := by
  have hs₀ : size ≠ 0 := by
    rintro rfl
    exact absurd h₁ (by decide)
  obtain ⟨fb, hl⟩ := h.layout
  obtain ⟨s', ptr, hcall, hcase⟩ := malloc_spec hbase hl h₁ h₂ grant
  rw [← malloc_eq hbase h grant size hs₀] at hcall
  refine ⟨_, by rw [exec, hcall]; rfl, ?_⟩
  rcases hcase with ⟨rfl, rfl⟩ | ⟨hne, ⟨fb', hl'⟩, hhead, hframe⟩
  · simp only [if_true]
    exact ⟨Or.inl rfl, ⟨fb, hl⟩, h.sizes, h.headers⟩
  · simp only [if_neg hne]
    -- The header of the new block is written, and those of the others are not touched.
    refine ⟨Or.inl hl'.heap, ⟨fb', ?_⟩, fun b hb => ?_, fun b hb => ?_⟩
    · have hs' : { s' with heap := base } = s' := by rw [← hl'.heap]
      rw [hs']
      exact hl'
    · rcases List.mem_cons.mp hb with rfl | hb
      · exact h₂
      · exact h.sizes b hb
    · rcases List.mem_cons.mp hb with rfl | hb
      · exact hhead
      · have := hframe _ (List.mem_map_of_mem hb)
        rw [addr_liveBlock] at this
        exact this.trans (h.headers b hb)

theorem Inv.free (hbase : base ≠ 0) (h : Inv base c) {b : Word × Word} (hb : b ∈ c.live) :
    ∃ c', c.exec (.free b.1) = some c' ∧ Inv base c' := by
  obtain ⟨fb, hl⟩ := h.layout
  have hheap := h.heap_eq hb
  have hdata : { c.toData with heap := base } = c.toData := by rw [← hheap]
  -- The block that is freed, among the others.
  obtain ⟨b', l₁, l₂, -, hp, hlive, herase⟩ :=
    List.exists_of_eraseP (p := fun d => decide (d.1 = b.1)) hb (by simp)
  have hptr : b'.1 = b.1 := by simpa using hp
  have hb' : b' ∈ c.live := by rw [hlive]; exact List.mem_append_right _ List.mem_cons_self
  have hsub : ∀ d ∈ l₁ ++ l₂, d ∈ c.live := by
    intro d hd
    rw [hlive]
    exact List.perm_middle.mem_iff.mpr (List.mem_cons_of_mem _ hd)
  rw [hdata] at hl
  have hl' : Layout base c.toData fb (liveBlock base b' :: (l₁ ++ l₂).map (liveBlock base)) :=
    hl.perm (by rw [hlive, ← List.map_cons]; exact List.perm_middle.map _)
  -- The other blocks keep their headers, and the lists take its memory.
  obtain ⟨s', hcall, ⟨fb', hl''⟩, -, hframe⟩ := free_spec hbase hl' (h.sizes b' hb') (h.headers b' hb')
  rw [hptr] at hcall
  refine ⟨_, by rw [exec, hcall]; rfl, Or.inl hl''.heap, ⟨fb', ?_⟩, fun d hd => ?_, fun d hd => ?_⟩
  · have hs' : { s' with heap := base } = s' := by rw [← hl''.heap]
    simp only [herase, hs']
    exact hl''
  · exact h.sizes d (hsub d (herase ▸ hd))
  · have hd' : d ∈ l₁ ++ l₂ := herase ▸ hd
    have := hframe _ (List.mem_map_of_mem hd')
    rw [addr_liveBlock] at this
    exact this.trans (h.headers d (hsub d hd'))

/-- A store inside a live block hits neither a header nor a link. -/
theorem Inv.store (h : Inv base c) {b : Word × Word} (hb : b ∈ c.live) {a : Word} (h₁ : b.1 ≤ a)
    (h₂ : a.toNat < b.1.toNat + b.2.toNat) (v : Word) :
    Inv base { c with mem := Function.update c.mem a v } := by
  obtain ⟨fb, hl⟩ := h.layout
  obtain ⟨l₁, l₂, hlive⟩ := List.append_of_mem hb
  have hl' : Layout base { c.toData with heap := base } fb
      (liveBlock base b :: (l₁ ++ l₂).map (liveBlock base)) :=
    hl.perm (by rw [hlive, ← List.map_cons]; exact List.perm_middle.map _)
  obtain ⟨-, -, -, hfit⟩ := blockIndex_spec (h.sizes b hb)
  have hptr := hl'.toNat_ptr (b := liveBlock base b) (List.mem_append_left _ List.mem_cons_self)
  rw [addr_liveBlock, sub_add_cancel] at hptr
  have h₁' : b.1.toNat ≤ a.toNat := h₁
  -- The address as an offset of the heap, inside the block and past its first word.
  have hoff : (a - base).toNat = a.toNat - base.toNat := by
    rw [BitVec.toNat_sub]
    have := a.isLt
    omega
  have hin : (a - base).toNat ∈ liveBlock base b := by
    rw [Block.mem_def, hoff]
    show _ ∧ _ < _ + 2 ^ blockIndex b.2
    omega
  have hne : ∀ d ∈ (liveBlock base b :: (l₁ ++ l₂).map (liveBlock base)) ++ freeBlocks fb,
      addr base d.offset ≠ a := by
    intro d hd he
    have hlt := hl'.offset_lt hd
    have hd' : d.offset = (a - base).toNat := by rw [← he, sub_addr (by omega)]
    rcases List.mem_cons.mp hd with rfl | hd
    · omega
    · exact hl'.tiles.disjoint_head hd _ hin (hd' ▸ d.offset_mem)
  refine ⟨h.started, ⟨fb, hl.frame fun i o ho => Function.update_of_ne ?_ _ _⟩, h.sizes,
    fun d hd => ?_⟩
  · exact hne ⟨o, i⟩ (List.mem_append_right _ (hl'.mem_free ho))
  · have hd' : liveBlock base d ∈ liveBlock base b :: (l₁ ++ l₂).map (liveBlock base) := by
      rw [hlive] at hd
      exact List.mem_map_of_mem (f := liveBlock base) (List.perm_middle.mem_iff.mp hd)
    have := hne _ (List.mem_append_left _ hd')
    rw [addr_liveBlock] at this
    exact (Function.update_of_ne this _ _).trans (h.headers d hd)

/-- **Every operation of a client returns and keeps the invariant.** -/
theorem Inv.exec (hbase : base ≠ 0) (h : Inv base c) {op : Op} (ha : c.Admits op) :
    ∃ c', c.exec op = some c' ∧ Inv base c' := by
  cases op with
  | malloc size grant => exact h.malloc hbase ha.1 ha.2 grant
  | free ptr =>
    obtain ⟨b, hb, rfl⟩ := ha
    exact h.free hbase hb
  | store a v =>
    obtain ⟨b, hb, h₁, h₂⟩ := ha
    exact ⟨_, rfl, h.store hb h₁ h₂ v⟩

theorem Inv.step (hbase : base ≠ 0) (h : Inv base c) {op : Op} {c' : Client}
    (hs : c.step op = some c') : Inv base c' := by
  rw [Client.step] at hs
  split_ifs at hs with ha
  obtain ⟨c'', hc'', h'⟩ := h.exec hbase ha
  rw [hc''] at hs
  exact Option.some.inj hs ▸ h'

/-! ## The buddy heap -/

/-- The live blocks and the blocks on the lists. -/
def blocks (c : Client) (fb : ℕ → List ℕ) : List Block :=
  c.live.map (liveBlock c.heap) ++ freeBlocks fb

/-- The lists of `fb_table` hold the blocks at the offsets `fb`; with the live blocks they are
disjoint, have a size from `2 ^ 3` to `2 ^ 12` and are aligned on it from the heap, and tile its
first `extent` bytes; no two buddies below the maximal index are both free, and without live blocks
only whole pages are left. -/
structure BuddyHeap (c : Client) (fb : ℕ → List ℕ) (extent : ℤ) : Prop where
  listed : ∀ i ≤ maxIndex, Chain 0 c.mem (c.fbTable i) ((fb i).map (addr c.heap))
  once : ∀ i ≤ maxIndex, (fb i).Nodup
  disjoint : (c.blocks fb).Pairwise Block.Disjoint
  shape : ∀ b ∈ c.blocks fb, 3 ≤ b.index ∧ b.index ≤ maxIndex ∧ b.Aligned
  tiled : ∀ x : ℕ, (∃ b ∈ c.blocks fb, x ∈ b) ↔ (x : ℤ) < extent
  coalesced : ∀ i < maxIndex, ∀ o ∈ fb i, ∀ o' ∈ fb i,
    getbuddy c.toData i (addr c.heap o) ≠ addr c.heap o'
  pages : c.live = [] → ∀ i < maxIndex, fb i = []

/-- The heap has the bytes between its base and the break. -/
theorem Inv.buddyHeap (h : Inv base c) : ∃ fb, c.BuddyHeap fb ((c.brk : ℤ) - base.toNat) := by
  obtain ⟨fb, hl⟩ := h.layout
  -- Before the first allocation there are no blocks at all, and the heap pointer is not used.
  have hheap : c.heap = base ∨ c.live = [] ∧ ∀ i, fb i = [] := by
    rcases h.started with hs | ⟨-, hs⟩
    · exact Or.inl hs
    · have hnone : ∀ b, b ∉ c.live.map (liveBlock base) ++ freeBlocks fb := fun b hb => by
        have := hl.lt_brk hb b.offset_mem
        dsimp only at this
        omega
      refine Or.inr ⟨?_, fun i => ?_⟩
      · exact List.map_eq_nil_iff.mp (List.eq_nil_iff_forall_not_mem.mpr fun b hb =>
          hnone b (List.mem_append_left _ hb))
      · exact List.eq_nil_iff_forall_not_mem.mpr fun o ho =>
          hnone _ (List.mem_append_right _ (hl.mem_free ho))
  have hblocks : c.blocks fb = c.live.map (liveBlock base) ++ freeBlocks fb := by
    rcases hheap with hs | ⟨hs, -⟩
    · rw [blocks, hs]
    · rw [blocks, hs, List.map_nil, List.map_nil]
  have haddr : ∀ i, (fb i).map (addr c.heap) = (fb i).map (addr base) := by
    intro i
    rcases hheap with hs | ⟨-, hs⟩
    · rw [hs]
    · rw [hs i, List.map_nil, List.map_nil]
  refine ⟨fb, fun i _ => ?_, fun i _ => hl.nodup i, ?_, ?_, fun x => ?_, fun i hi o ho o' ho' he => ?_,
    fun hlive i hi => ?_⟩
  · rw [haddr]
    exact hl.chain i
  · rw [hblocks]
    exact hl.tiles.pairwise
  · rw [hblocks]
    exact hl.shape
  · have hb := hl.base_le
    rw [hblocks, hl.tiles.mem_iff, Set.mem_Iio]
    dsimp only at hb ⊢
    omega
  · rcases hheap with hs | ⟨-, hs⟩
    · rw [hs, getbuddy_addr hs hi.le] at he
      have hlt : (Block.buddy ⟨o, i⟩).offset < c.brk - base.toNat := by
        have hm := List.mem_append_right (c.live.map (liveBlock base)) (hl.mem_free ho)
        refine buddy_lt (hl.shape _ hm).2.2 ((pow_dvd_pow 2 hi).trans hl.pages) ?_
        exact (hl.tiles.mem_iff _).mp ⟨_, hm, Block.offset_mem _⟩
      have hbrk := hl.brk_le
      have ho'' := hl.free_lt ho'
      have he' : (Block.buddy ⟨o, i⟩).offset = o' :=
        addr_inj (by dsimp only at hbrk; omega) (by omega) he
      refine hl.coalesced ⟨o, i⟩ (hl.mem_free ho) hi ?_
      have := hl.mem_free ho'
      rw [← he'] at this
      exact this
    · rw [hs i] at ho
      exact List.not_mem_nil ho
  · have htiles := hl.tiles
    rw [hlive, List.map_nil, List.nil_append] at htiles
    have hshape := fun b hb => hl.shape b (List.mem_append_right (c.live.map (liveBlock base)) hb)
    refine List.eq_nil_iff_forall_not_mem.mpr fun o ho => ?_
    have := htiles.index_eq_of_coalesced hl.pages (fun b hb => (hshape b hb).2.2)
      (fun b hb => (hshape b hb).2.1) hl.coalesced ⟨o, i⟩ (hl.mem_free ho)
    dsimp only at this
    omega

/-- `heap_size` is the number of these bytes as long as an `int` can hold it, and negative from then
on. -/
theorem Inv.toInt_heapSize (hbase : base ≠ 0) (h : Inv base c) :
    c.heapSize.toInt = (c.brk : ℤ) - base.toNat ∧ c.brk - base.toNat < 2 ^ 15 ∨
      c.heapSize.toInt < 0 ∧ 2 ^ 15 ≤ c.brk - base.toNat := by
  obtain ⟨fb, hl⟩ := h.layout
  have hb : base.toNat ≤ c.brk := hl.base_le
  have hle : c.brk ≤ 2 ^ 16 := hl.brk_le
  have hb₀ : base.toNat ≠ 0 := fun h' => hbase (BitVec.eq_of_toNat_eq h')
  have hs : c.heapSize = BitVec.ofNat 16 (c.brk - base.toNat) := hl.heapSize
  have hn : c.heapSize.toNat = c.brk - base.toNat := by
    rw [hs, BitVec.toNat_ofNat]
    omega
  rw [BitVec.toInt_eq_toNat_cond, hn]
  split_ifs with hlt
  · left
    omega
  · right
    omega

/-- A heap of no bytes has no blocks. -/
theorem BuddyHeap.blocks_eq_nil {fb : ℕ → List ℕ} {extent : ℤ} (h : c.BuddyHeap fb extent)
    (hneg : extent < 0) : c.blocks fb = [] := by
  refine List.eq_nil_iff_forall_not_mem.mpr fun b hb => ?_
  have := (h.tiled b.offset).mp ⟨b, hb, b.offset_mem⟩
  omega

/-- The lists are determined by the memory. -/
theorem BuddyHeap.freeBlocks_eq {fb fb' : ℕ → List ℕ} {e e' : ℤ} (h : c.BuddyHeap fb e)
    (h' : c.BuddyHeap fb' e') (hn : freeBlocks fb = []) : freeBlocks fb' = [] := by
  refine List.eq_nil_iff_forall_not_mem.mpr fun b hb => ?_
  obtain ⟨hi, ho⟩ := mem_freeBlocks.mp hb
  have heq := (h.listed b.index hi).unique (h'.listed b.index hi)
  have hne : fb b.index ≠ [] := by
    intro h₀
    rw [h₀, List.map_nil] at heq
    rw [List.map_eq_nil_iff.mp heq.symm] at ho
    exact List.not_mem_nil ho
  obtain ⟨o, ho'⟩ := List.exists_mem_of_ne_nil _ hne
  have : (⟨o, b.index⟩ : Block) ∈ freeBlocks fb := mem_freeBlocks.mpr ⟨hi, ho'⟩
  rw [hn] at this
  exact List.not_mem_nil this

/-- The blocks tile `heap_size` bytes exactly while the heap has fewer than `2 ^ 15` bytes. -/
theorem Inv.buddyHeap_heapSize_iff (hbase : base ≠ 0) (h : Inv base c) :
    (∃ fb, c.BuddyHeap fb c.heapSize.toInt) ↔ c.brk - base.toNat < 2 ^ 15 := by
  obtain ⟨fb, hfb⟩ := h.buddyHeap
  rcases h.toInt_heapSize hbase with ⟨he, hlt⟩ | ⟨hneg, hle⟩
  · exact ⟨fun _ => hlt, fun _ => ⟨fb, he ▸ hfb⟩⟩
  · refine ⟨fun ⟨fb', hfb'⟩ => ?_, fun hlt => absurd hlt (not_lt.mpr hle)⟩
    -- A negative size leaves no room for any block, but the first byte of the heap is in one.
    have hnone := List.append_eq_nil_iff.mp (hfb'.blocks_eq_nil hneg)
    have hnone' : c.blocks fb = [] :=
      List.append_eq_nil_iff.mpr ⟨hnone.1, hfb'.freeBlocks_eq hfb hnone.2⟩
    obtain ⟨b, hb, -⟩ := (hfb.tiled 0).mpr (by omega)
    rw [hnone'] at hb
    exact (List.not_mem_nil hb).elim

end Client

/-- **The buddy heap over every run.** After any operations of a client, from any base of the heap
and any answers of the system: the next operation returns; the live blocks and the free blocks are a
buddy heap of the bytes obtained from `sbrk`; and they tile the `heap_size` bytes from `heap` exactly
while at most seven pages were obtained. -/
theorem malloc_buddy_heap (base : Word) (hbase : base ≠ 0) (mem : Word → Word) (ops : List Op)
    (c : Client) (h : run Client.step (Client.init base mem) ops = some c) :
    (∀ op, c.Admits op → (c.step op).isSome) ∧
      (∃ fb, c.BuddyHeap fb ((c.brk : ℤ) - base.toNat)) ∧
      ((∃ fb, c.BuddyHeap fb c.heapSize.toInt) ↔ c.brk - base.toNat ≤ 7 * 2 ^ maxIndex) := by
  have hinv : c.Inv base :=
    run_invariant Client.step (fun _ _ _ hs hstep => hs.step hbase hstep) (Client.inv_init base mem) h
  refine ⟨fun op ha => ?_, hinv.buddyHeap, (hinv.buddyHeap_heapSize_iff hbase).trans ?_⟩
  · obtain ⟨c', hc', -⟩ := hinv.exec hbase ha
    rw [Client.step, if_pos ha, hc']
    rfl
  · obtain ⟨fb, hl⟩ := hinv.layout
    obtain ⟨q, hq⟩ := hl.pages
    have hq' : c.brk - base.toNat = 2 ^ maxIndex * q := hq
    rw [hq', show maxIndex = 12 from rfl]
    omega

/-- A run of two allocations, one release and one refused page. -/
theorem malloc_buddy_heap_small :
    ∃ c, run Client.step (Client.init 0x1000 fun _ => 0)
        [.malloc 10 true, .malloc 4094 true, .free 0x1002, .malloc 4094 false] = some c ∧
      (∀ op, c.Admits op → (c.step op).isSome) ∧
      (∃ fb, c.BuddyHeap fb ((c.brk : ℤ) - (0x1000 : Word).toNat)) ∧
      ((∃ fb, c.BuddyHeap fb c.heapSize.toInt) ↔
        c.brk - (0x1000 : Word).toNat ≤ 7 * 2 ^ maxIndex) := by
  have hsome : (run Client.step (Client.init 0x1000 fun _ => 0)
      [.malloc 10 true, .malloc 4094 true, .free 0x1002, .malloc 4094 false]).isSome := by
    decide
  obtain ⟨c, hc⟩ := Option.isSome_iff_exists.mp hsome
  exact ⟨c, hc, malloc_buddy_heap 0x1000 (by decide) _ _ c hc⟩

/-- The eighth page: `heap_size` is `28672 + 4096` in an `int`. -/
theorem not_buddyHeap_eight_pages :
    ∃ c, run Client.step (Client.init 0x1000 fun _ => 0) (List.replicate 8 (.malloc 4094 true)) =
        some c ∧
      c.heapSize.toInt = -32768 ∧ ¬ ∃ fb, c.BuddyHeap fb c.heapSize.toInt := by
  have hrun : (run Client.step (Client.init 0x1000 fun _ => 0)
      (List.replicate 8 (.malloc 4094 true))).map (fun c => (c.heapSize, c.live.length)) =
        some (0x8000, 8) := by
    decide
  obtain ⟨c, hc, he⟩ := Option.map_eq_some_iff.mp hrun
  obtain ⟨hsize, hlen⟩ := Prod.mk.inj he
  have hneg : c.heapSize.toInt = -32768 := by
    rw [hsize]
    decide
  refine ⟨c, hc, hneg, fun ⟨fb, hfb⟩ => ?_⟩
  have hnone := List.append_eq_nil_iff.mp (hfb.blocks_eq_nil (by omega))
  rw [List.map_eq_nil_iff.mp hnone.1] at hlen
  exact absurd hlen (by decide)

end I80k.Libc

import I80k.Lib.Dyadic
import I80k.Libc.Malloc

/-!
# The layout of the buddy heap

The blocks in use and the free blocks on the lists tile the heap, and no two halves of one block
are both free. The operations on the free lists keep this layout, with the block that `malloc` or
`free` is working on counted among those in use.

## Main definitions

* `addr base o`: the address at offset `o` of the heap
* `freeBlocks fb`: the blocks on the lists
* `Layout base s fb used`: the lists of the data `s` are `fb`, and `used` and `fb` tile the heap

## Main results

* `getindex_spec`: the index of a block is minimal
* `Layout.add`, `Layout.take`: putting a block on its list, and taking it off
* `Layout.split`, `Layout.merge`: a used block is exchanged for its halves
* `fbRemove_of_not_mem`, `fbRemove_of_mem`: the list loses the block, if it was there
-/

namespace I80k.Libc

open DyadicTiling LinkedChain

/-! ## Indexes -/

section Index

theorem ofNat_two_pow_shiftLeft (k : ℕ) :
    (BitVec.ofNat 16 (2 ^ k) : Word) <<< 1 = BitVec.ofNat 16 (2 ^ (k + 1)) := by
  apply BitVec.eq_of_toNat_eq
  rw [BitVec.toNat_shiftLeft, BitVec.toNat_ofNat, BitVec.toNat_ofNat, Nat.shiftLeft_eq, pow_succ]
  omega

/-- The loop stops at the least power of two that reaches the bound. -/
theorem doubleUntil_spec {bound : Word} (n : ℕ) :
    ∀ k fuel index : ℕ, bound.toNat ≤ 2 ^ (k + n) → k + n ≤ 15 → n < fuel →
      ∃ j ≤ n, doubleUntil bound fuel (BitVec.ofNat 16 (2 ^ k)) index = some (index + j) ∧
        bound.toNat ≤ 2 ^ (k + j) ∧ (j = 0 ∨ 2 ^ (k + j - 1) < bound.toNat) := by
  -- On the number of doublings that are left until the bound is reached for sure.
  induction n with
  | zero =>
    intro k fuel index hb hk hf
    obtain ⟨fuel, rfl⟩ := Nat.exists_eq_add_of_lt hf
    have hlt : 2 ^ k < 2 ^ 16 := Nat.pow_lt_pow_right (by norm_num) (by omega)
    refine ⟨0, le_rfl, ?_, hb, Or.inl rfl⟩
    have hn : ¬ (BitVec.ofNat 16 (2 ^ k) < bound) := by
      rw [BitVec.lt_def, BitVec.toNat_ofNat, Nat.mod_eq_of_lt hlt]
      simpa using hb
    simp only [doubleUntil, if_neg hn, add_zero]
  | succ n ih =>
    intro k fuel index hb hk hf
    obtain ⟨fuel, rfl⟩ : ∃ f, fuel = f + 1 := ⟨fuel - 1, by omega⟩
    have hlt : 2 ^ k < 2 ^ 16 := Nat.pow_lt_pow_right (by norm_num) (by omega)
    -- Below the bound the loop goes on with the next power, else it stops here.
    by_cases hc : BitVec.ofNat 16 (2 ^ k) < bound
    · obtain ⟨j, hj, he, hle, hmin⟩ := ih (k + 1) fuel (index + 1)
        (by rwa [show k + 1 + n = k + (n + 1) by omega]) (by omega) (by omega)
      refine ⟨j + 1, by omega, ?_, by rwa [show k + (j + 1) = k + 1 + j by omega], Or.inr ?_⟩
      · simp only [doubleUntil, if_pos hc, ofNat_two_pow_shiftLeft, he]
        congr 1
        omega
      · rcases hmin with rfl | hmin
        · rw [BitVec.lt_def, BitVec.toNat_ofNat, Nat.mod_eq_of_lt hlt] at hc
          simpa using hc
        · rwa [show k + (j + 1) - 1 = k + 1 + j - 1 by omega]
    · refine ⟨0, by omega, by simp only [doubleUntil, if_neg hc, add_zero], ?_, Or.inl rfl⟩
      rw [BitVec.lt_def, BitVec.toNat_ofNat, Nat.mod_eq_of_lt hlt] at hc
      simpa using hc

/-- Up to `2 ^ 15`, `getindex` returns the least index from 3 on whose block holds `size`. -/
theorem getindex_spec {size : Word} (h : size.toNat ≤ 2 ^ 15) :
    ∃ i, getindex size = some i ∧ 3 ≤ i ∧ size.toNat ≤ 2 ^ i ∧
      (i = 3 ∨ 2 ^ (i - 1) < size.toNat) := by
  obtain ⟨j, -, he, hle, hmin⟩ := doubleUntil_spec 12 3 17 3 h (by norm_num)
    (by norm_num)
  refine ⟨3 + j, ?_, by omega, hle, ?_⟩
  · have hm : doubleUntil minSize 17 1 0 = some 3 := by decide
    rw [getindex, hm]
    exact he
  · rcases hmin with rfl | hmin
    · exact Or.inl rfl
    · exact Or.inr hmin

/-- The index of the block that `malloc` uses for `size` bytes. -/
def blockIndex (size : Word) : ℕ := (getindex (size + headerSize)).getD 0

/-- A size that fits in a page with its header has an index up to `MAX_INDEX`. -/
theorem blockIndex_of_le {size : Word} (h : size + headerSize ≤ 4096) :
    getindex (size + headerSize) = some (blockIndex size) ∧ 3 ≤ blockIndex size ∧
      blockIndex size ≤ maxIndex ∧ (size + headerSize).toNat ≤ 2 ^ blockIndex size := by
  have h' : (size + headerSize).toNat ≤ 4096 := h
  obtain ⟨i, he, hi, hle, hmin⟩ := getindex_spec (h'.trans (by norm_num))
  have hb : blockIndex size = i := by rw [blockIndex, he]; rfl
  rw [hb]
  refine ⟨he, hi, ?_, hle⟩
  rcases hmin with rfl | hmin
  · decide
  · have hlt : 2 ^ (i - 1) < 2 ^ 12 := by omega
    have := (Nat.pow_lt_pow_iff_right (by norm_num : 1 < 2)).mp hlt
    show i ≤ 12
    omega

/-- For the sizes that a client asks for nothing wraps around. -/
theorem blockIndex_spec {size : Word} (h : size ≤ 4094) :
    getindex (size + headerSize) = some (blockIndex size) ∧ 3 ≤ blockIndex size ∧
      blockIndex size ≤ maxIndex ∧ size.toNat + 2 ≤ 2 ^ blockIndex size := by
  have h' : size.toNat ≤ 4094 := h
  have hfull : (size + headerSize).toNat = size.toNat + 2 := by
    rw [BitVec.toNat_add, show headerSize.toNat = 2 from rfl]
    omega
  have hle' : size + headerSize ≤ 4096 := by
    rw [BitVec.le_def, hfull]
    show _ ≤ 4096
    omega
  obtain ⟨he, h3, hmax, hle⟩ := blockIndex_of_le hle'
  exact ⟨he, h3, hmax, hfull ▸ hle⟩

/-- It is the least index from 3 on whose block holds the size and the header. -/
theorem blockIndex_le {size : Word} (h : size ≤ 4094) {i : ℕ} (hi : 3 ≤ i)
    (hfit : size.toNat + headerSize.toNat ≤ 2 ^ i) : blockIndex size ≤ i := by
  have h' : size.toNat ≤ 4094 := h
  have hfull : (size + headerSize).toNat = size.toNat + headerSize.toNat := by
    rw [BitVec.toNat_add, show headerSize.toNat = 2 from rfl]
    omega
  have hheader : headerSize.toNat = 2 := rfl
  have hle : (size + headerSize).toNat ≤ 2 ^ 15 := by omega
  obtain ⟨j, hj, -, -, hmin⟩ := getindex_spec hle
  rw [blockIndex, hj, Option.getD_some]
  rcases hmin with rfl | hmin
  · exact hi
  · have := (Nat.pow_lt_pow_iff_right (by norm_num : 1 < 2)).mp (lt_of_lt_of_le hmin (hfull ▸ hfit))
    omega

/-- The loop does not stop while the bound is not reached. -/
theorem doubleUntil_eq_none {bound : Word} (fuel : ℕ) :
    ∀ {sz : Word} {index : ℕ}, (∀ j < fuel, sz <<< j < bound) →
      doubleUntil bound fuel sz index = none := by
  induction fuel with
  | zero => exact fun _ => rfl
  | succ fuel ih =>
    intro sz index h
    rw [doubleUntil, if_pos (by simpa using h 0 (Nat.succ_pos _))]
    refine ih fun j hj => ?_
    rw [← BitVec.shiftLeft_add, Nat.add_comm]
    exact h (j + 1) (by omega)

/-- Past `2 ^ 15`, `getindex` does not return. -/
theorem getindex_eq_none {size : Word} (h : 2 ^ 15 < size.toNat) : getindex size = none := by
  have hm : doubleUntil minSize 17 1 0 = some 3 := by decide
  rw [getindex, hm]
  refine doubleUntil_eq_none 17 fun j _ => ?_
  rw [BitVec.lt_def, BitVec.toNat_shiftLeft, show minSize.toNat = 2 ^ 3 from rfl,
    Nat.shiftLeft_eq, ← pow_add]
  rcases le_or_gt (3 + j) 15 with hj | hj
  · have hpow : 2 ^ (3 + j) ≤ 2 ^ 15 := Nat.pow_le_pow_right (by norm_num) hj
    exact lt_of_le_of_lt (Nat.mod_le _ _) (lt_of_le_of_lt hpow h)
  · rw [Nat.mod_eq_zero_of_dvd (pow_dvd_pow 2 hj)]
    exact lt_of_le_of_lt (Nat.zero_le _) h

/-- A size that does not fit in a page has no index up to `MAX_INDEX`. -/
theorem maxIndex_lt_of_getindex {size : Word} {i : ℕ} (h : 4096 < size.toNat)
    (hi : getindex size = some i) : maxIndex < i := by
  rcases le_or_gt size.toNat (2 ^ 15) with hle | hgt
  · obtain ⟨j, hj, -, hle, -⟩ := getindex_spec hle
    obtain rfl : j = i := Option.some.inj (hj.symm.trans hi)
    exact (Nat.pow_lt_pow_iff_right (by norm_num : 1 < 2)).mp (lt_of_lt_of_le h hle)
  · rw [getindex_eq_none hgt] at hi
    cases hi

end Index

/-! ## Addresses and offsets -/

section Address

/-- The address at offset `o` of the heap. -/
def addr (base : Word) (o : ℕ) : Word := base + BitVec.ofNat 16 o

variable {base : Word}

theorem toNat_addr {o : ℕ} (h : base.toNat + o < 2 ^ 16) :
    (addr base o).toNat = base.toNat + o := by
  rw [addr, BitVec.toNat_add, BitVec.toNat_ofNat]
  omega

theorem addr_ne_zero (hb : base ≠ 0) {o : ℕ} (h : base.toNat + o < 2 ^ 16) : addr base o ≠ 0 := by
  intro h₀
  have h₁ := toNat_addr h
  have h₂ : base.toNat ≠ 0 := fun h' => hb (BitVec.eq_of_toNat_eq h')
  rw [h₀] at h₁
  have h₃ : (0 : Word).toNat = 0 := rfl
  omega

theorem addr_inj {o o' : ℕ} (h : o < 2 ^ 16) (h' : o' < 2 ^ 16) (he : addr base o = addr base o') :
    o = o' := by
  have := congrArg BitVec.toNat (add_left_cancel he)
  rwa [BitVec.toNat_ofNat, BitVec.toNat_ofNat, Nat.mod_eq_of_lt h, Nat.mod_eq_of_lt h'] at this

@[simp] theorem addr_sub (a : Word) : addr base (a - base).toNat = a := by
  rw [addr, BitVec.ofNat_toNat, BitVec.setWidth_eq]
  exact add_sub_cancel base a

theorem sub_addr {o : ℕ} (h : o < 2 ^ 16) : (addr base o - base).toNat = o := by
  rw [addr, add_sub_cancel_left, BitVec.toNat_ofNat, Nat.mod_eq_of_lt h]

theorem getbuddy_addr {s : Data ℕ} (hs : s.heap = base) {i : ℕ} (hi : i ≤ maxIndex) (o : ℕ) :
    getbuddy s i (addr base o) = addr base (Block.buddy ⟨o, i⟩).offset := by
  have hpow : (1 <<< i : Word) = BitVec.ofNat 16 (2 ^ i) := by
    apply BitVec.eq_of_toNat_eq
    have hi' : i ≤ 12 := hi
    simp [Nat.shiftLeft_eq]
  rw [getbuddy, hs, hpow, addr, add_sub_cancel_left, addr]
  show _ = base + BitVec.ofNat 16 (2 ^ i ^^^ o)
  rw [BitVec.ofNat_xor]

end Address

/-! ## The blocks on the lists -/

section FreeBlocks

/-- The blocks on the lists, each list given by the offsets of its blocks. -/
def freeBlocks (fb : ℕ → List ℕ) : List Block :=
  (List.range (maxIndex + 1)).flatMap fun i => (fb i).map fun o => ⟨o, i⟩

theorem mem_freeBlocks {fb : ℕ → List ℕ} {b : Block} :
    b ∈ freeBlocks fb ↔ b.index ≤ maxIndex ∧ b.offset ∈ fb b.index := by
  simp only [freeBlocks, List.mem_flatMap, List.mem_range, List.mem_map]
  constructor
  · rintro ⟨i, hi, o, ho, rfl⟩
    exact ⟨Nat.lt_succ_iff.mp hi, ho⟩
  · rintro ⟨hi, ho⟩
    exact ⟨b.index, Nat.lt_succ_iff.mpr hi, b.offset, ho, rfl⟩

theorem freeBlocks_congr {fb fb' : ℕ → List ℕ} (h : ∀ i, (fb i).Perm (fb' i)) :
    (freeBlocks fb).Perm (freeBlocks fb') :=
  List.Perm.flatMap_left _ fun i _ => (h i).map _

/-- A list with one more block in front. -/
theorem freeBlocks_push (fb : ℕ → List ℕ) {i : ℕ} (hi : i ≤ maxIndex) (o : ℕ) :
    (freeBlocks (Function.update fb i (o :: fb i))).Perm (⟨o, i⟩ :: freeBlocks fb) := by
  have hp : (List.range (maxIndex + 1)).Perm (i :: (List.range (maxIndex + 1)).erase i) :=
    List.perm_cons_erase (List.mem_range.mpr (Nat.lt_succ_iff.mpr hi))
  have he : ∀ j ∈ (List.range (maxIndex + 1)).erase i, j ≠ i := by
    rintro j hj rfl
    exact (List.nodup_range.not_mem_erase) hj
  refine (List.Perm.flatMap_right _ hp).trans (.trans ?_ (.cons _ (List.Perm.flatMap_right _ hp).symm))
  rw [List.flatMap_cons, List.flatMap_cons, Function.update_self, List.map_cons, List.cons_append]
  refine .cons _ (.append_left _ (.of_eq (List.flatMap_congr fun j hj => ?_)))
  rw [Function.update_of_ne (he j hj)]

/-- A list with one of its blocks taken off. -/
theorem freeBlocks_erase {fb : ℕ → List ℕ} {i o : ℕ} (hi : i ≤ maxIndex) (ho : o ∈ fb i) :
    (freeBlocks fb).Perm (⟨o, i⟩ :: freeBlocks (Function.update fb i ((fb i).erase o))) := by
  refine .trans (freeBlocks_congr fun j => ?_)
    (freeBlocks_push (Function.update fb i ((fb i).erase o)) hi o)
  rw [Function.update_idem, Function.update_self]
  by_cases hj : j = i
  · subst hj
    rw [Function.update_self]
    exact List.perm_cons_erase ho
  · rw [Function.update_of_ne hj]

end FreeBlocks

/-! ## The layout -/

/-- The lists of the data `s` hold the blocks `fb`, given by their offsets from `base`; these and
the blocks `used` tile the heap, are aligned on their size, and no two halves of one block are both
free. -/
structure Layout (base : Word) (s : Data ℕ) (fb : ℕ → List ℕ) (used : List Block) : Prop where
  heap : s.heap = base
  base_le : base.toNat ≤ s.brk
  brk_le : s.brk ≤ 2 ^ 16
  pages : 2 ^ maxIndex ∣ s.brk - base.toNat
  heapSize : s.heapSize = BitVec.ofNat 16 (s.brk - base.toNat)
  chain : ∀ i, Chain 0 s.mem (s.fbTable i) ((fb i).map (addr base))
  listed : ∀ i, maxIndex < i → fb i = []
  shape : ∀ b ∈ used ++ freeBlocks fb, 3 ≤ b.index ∧ b.index ≤ maxIndex ∧ b.Aligned
  tiles : Tiles (used ++ freeBlocks fb) (Set.Iio (s.brk - base.toNat))
  coalesced : ∀ b ∈ freeBlocks fb, b.index < maxIndex → b.buddy ∉ freeBlocks fb

namespace Layout

variable {base : Word} {s s' : Data ℕ} {fb : ℕ → List ℕ} {used : List Block} {b : Block} {i o : ℕ}

theorem index_le (h : Layout base s fb used) (ho : o ∈ fb i) : i ≤ maxIndex := by
  by_contra hi
  rw [h.listed i (not_le.mp hi)] at ho
  exact List.not_mem_nil ho

theorem mem_free (h : Layout base s fb used) (ho : o ∈ fb i) : ⟨o, i⟩ ∈ freeBlocks fb :=
  mem_freeBlocks.mpr ⟨h.index_le ho, ho⟩

/-- The blocks lie below the break. -/
theorem lt_brk (h : Layout base s fb used) (hb : b ∈ used ++ freeBlocks fb) {x : ℕ} (hx : x ∈ b) :
    base.toNat + x < s.brk := by
  have hlt : x < s.brk - base.toNat := (h.tiles.mem_iff x).mp ⟨b, hb, hx⟩
  have := h.base_le
  omega

theorem offset_lt (h : Layout base s fb used) (hb : b ∈ used ++ freeBlocks fb) :
    base.toNat + b.offset < 2 ^ 16 :=
  lt_of_lt_of_le (h.lt_brk hb b.offset_mem) h.brk_le

theorem free_lt (h : Layout base s fb used) (ho : o ∈ fb i) : base.toNat + o < 2 ^ 16 :=
  h.offset_lt (b := ⟨o, i⟩) (List.mem_append_right used (h.mem_free ho))

/-- A used block holds no free block. -/
theorem disjoint (h : Layout base s fb used) (hb : b ∈ used) {c : Block}
    (hc : c ∈ freeBlocks fb) : b.Disjoint c :=
  (List.pairwise_append.mp h.tiles.pairwise).2.2 b hb c hc

theorem offset_ne (h : Layout base s fb used) (hb : b ∈ used) (ho : o ∈ fb i) : o ≠ b.offset := by
  rintro rfl
  exact h.disjoint hb (h.mem_free ho) _ b.offset_mem (Block.offset_mem ⟨b.offset, i⟩)

/-- The first words of a used and of a free block are distinct. -/
theorem addr_ne (h : Layout base s fb used) (hb : b ∈ used) (ho : o ∈ fb i) :
    addr base o ≠ addr base b.offset := by
  intro he
  have h₁ := h.free_lt ho
  have h₂ := h.offset_lt (List.mem_append_left _ hb)
  exact h.offset_ne hb ho (addr_inj (by omega) (by omega) he)

theorem nodup (h : Layout base s fb used) (i : ℕ) : (fb i).Nodup := by
  by_cases hi : i ≤ maxIndex
  · have hp := (List.pairwise_append.mp h.tiles.pairwise).2.1
    have hm := (List.pairwise_flatMap.mp hp).1 i (List.mem_range.mpr (Nat.lt_succ_iff.mpr hi))
    refine (List.pairwise_map.mp hm).imp ?_
    rintro a c hac rfl
    exact hac a (Block.offset_mem ⟨a, i⟩) (Block.offset_mem ⟨a, i⟩)
  · rw [h.listed i (not_le.mp hi)]
    exact List.nodup_nil

theorem nodup_addr (h : Layout base s fb used) (i : ℕ) : ((fb i).map (addr base)).Nodup := by
  refine List.Nodup.map_on (fun a ha c hc he => ?_) (h.nodup i)
  have h₁ := h.free_lt ha
  have h₂ := h.free_lt hc
  exact addr_inj (by omega) (by omega) he

/-- The lists are disjoint. -/
theorem addr_not_mem (h : Layout base s fb used) {j : ℕ} (hij : i ≠ j) (ho : o ∈ fb j) :
    addr base o ∉ (fb i).map (addr base) := by
  intro hm
  obtain ⟨o', ho', he⟩ := List.mem_map.mp hm
  have h₁ := h.free_lt ho
  have h₂ := h.free_lt ho'
  obtain rfl : o' = o := addr_inj (by omega) (by omega) he
  have hp := (List.pairwise_append.mp h.tiles.pairwise).2.1
  obtain ⟨s, t, hst⟩ := List.append_of_mem (h.mem_free ho)
  have hq := hp.perm (hst ▸ List.perm_middle) fun hd x h₁ h₂ => hd x h₂ h₁
  have hm' : (⟨o', i⟩ : Block) ∈ s ++ t := by
    have := hst ▸ h.mem_free ho'
    rcases List.mem_append.mp this with hm | hm
    · exact List.mem_append_left _ hm
    · rcases List.mem_cons.mp hm with he | hm
      · exact absurd (congrArg Block.index he) hij
      · exact List.mem_append_right _ hm
  exact List.rel_of_pairwise_cons hq hm' o' (Block.offset_mem ⟨o', j⟩) (Block.offset_mem ⟨o', i⟩)

/-- Only the words of the free blocks matter. -/
theorem frame (h : Layout base s fb used) {mem : Word → Word}
    (hm : ∀ i, ∀ o ∈ fb i, mem (addr base o) = s.mem (addr base o)) :
    Layout base { s with mem } fb used where
  heap := h.heap
  base_le := h.base_le
  brk_le := h.brk_le
  pages := h.pages
  heapSize := h.heapSize
  chain i := (h.chain i).congr fun x hx => by
    obtain ⟨o, ho, rfl⟩ := List.mem_map.mp hx
    exact hm i o ho
  listed := h.listed
  shape := h.shape
  tiles := h.tiles
  coalesced := h.coalesced

theorem perm {used' : List Block} (h : Layout base s fb used) (hp : used.Perm used') :
    Layout base s fb used' where
  heap := h.heap
  base_le := h.base_le
  brk_le := h.brk_le
  pages := h.pages
  heapSize := h.heapSize
  chain := h.chain
  listed := h.listed
  shape b hb := h.shape b ((hp.append_right _).mem_iff.mpr hb)
  tiles := h.tiles.perm (hp.append_right _)
  coalesced := h.coalesced

/-- A block in use goes to the front of its list, if its buddy is not free. -/
theorem add (h : Layout base s fb (⟨o, i⟩ :: used)) (hbase : base ≠ 0)
    (hb : i = maxIndex ∨ Block.buddy ⟨o, i⟩ ∉ freeBlocks fb) :
    Layout base (fbAdd s i (addr base o)) (Function.update fb i (o :: fb i)) used := by
  have hu : (⟨o, i⟩ : Block) ∈ (⟨o, i⟩ : Block) :: used := List.mem_cons_self
  have hi : i ≤ maxIndex := (h.shape ⟨o, i⟩ (List.mem_append_left _ hu)).2.1
  have hp := freeBlocks_push fb hi o
  have hp' : (used ++ freeBlocks (Function.update fb i (o :: fb i))).Perm
      ((⟨o, i⟩ : Block) :: used ++ freeBlocks fb) :=
    (hp.append_left used).trans List.perm_middle
  have hout : ∀ j, addr base o ∉ (fb j).map (addr base) := by
    intro j hm
    obtain ⟨o', ho', he⟩ := List.mem_map.mp hm
    exact h.addr_ne hu ho' he
  refine ⟨h.heap, h.base_le, h.brk_le, h.pages, h.heapSize, fun j => ?_, fun j hj => ?_,
    fun b hb' => h.shape b (hp'.mem_iff.mp hb'), h.tiles.perm hp'.symm, fun b hb' hlt hbb => ?_⟩
  · by_cases hj : j = i
    · subst hj
      simp only [fbAdd, Function.update_self, List.map_cons]
      exact (h.chain j).push (addr_ne_zero hbase (h.offset_lt (List.mem_append_left _ hu)))
        (hout j)
    · simp only [fbAdd, Function.update_of_ne hj]
      refine (h.chain j).congr fun x hx => Function.update_of_ne ?_ _ _
      rintro rfl
      exact hout j hx
  · have hne : j ≠ i := by omega
    rw [Function.update_of_ne hne]
    exact h.listed j hj
  · -- Of two free halves one is the new block; it is not its own buddy.
    rcases List.mem_cons.mp (hp.mem_iff.mp hb') with rfl | hb'
    · rcases List.mem_cons.mp (hp.mem_iff.mp hbb) with he | hbb
      · exact buddy_ne_self _ (congrArg Block.offset he)
      · rcases hb with rfl | hb
        · exact lt_irrefl _ hlt
        · exact hb hbb
    · rcases List.mem_cons.mp (hp.mem_iff.mp hbb) with he | hbb
      · have hbo : b = Block.buddy ⟨o, i⟩ := by rw [← he, buddy_buddy]
        subst hbo
        rcases hb with rfl | hb
        · exact lt_irrefl _ hlt
        · exact hb hb'
      · exact h.coalesced b hb' hlt hbb

/-- A free block goes in use, once the chain of its list no longer holds it. -/
theorem take (h : Layout base s fb used) (ho : o ∈ fb i) (hheap : s'.heap = s.heap)
    (hsize : s'.heapSize = s.heapSize) (hbrk : s'.brk = s.brk)
    (hi : Chain 0 s'.mem (s'.fbTable i) (((fb i).erase o).map (addr base)))
    (hj : ∀ j, j ≠ i → Chain 0 s'.mem (s'.fbTable j) ((fb j).map (addr base))) :
    Layout base s' (Function.update fb i ((fb i).erase o)) (⟨o, i⟩ :: used) := by
  have hp := freeBlocks_erase (h.index_le ho) ho
  have hp' : (used ++ freeBlocks fb).Perm
      ((⟨o, i⟩ : Block) :: used ++ freeBlocks (Function.update fb i ((fb i).erase o))) :=
    (hp.append_left used).trans List.perm_middle
  refine ⟨hheap.trans h.heap, hbrk ▸ h.base_le, hbrk ▸ h.brk_le, hbrk ▸ h.pages,
    by rw [hsize, hbrk, h.heapSize], fun j => ?_, fun j hj' => ?_,
    fun b hb => h.shape b (hp'.mem_iff.mpr hb), hbrk ▸ h.tiles.perm hp', fun b hb hlt hbb => ?_⟩
  · by_cases hji : j = i
    · subst hji
      rw [Function.update_self]
      exact hi
    · rw [Function.update_of_ne hji]
      exact hj j hji
  · have hi' := h.index_le ho
    rw [Function.update_of_ne (by omega)]
    exact h.listed j hj'
  · exact h.coalesced b (hp.mem_iff.mpr (List.mem_cons_of_mem _ hb)) hlt
      (hp.mem_iff.mpr (List.mem_cons_of_mem _ hbb))

/-- A used block is exchanged for its halves. -/
theorem split (h : Layout base s fb (⟨o, i + 1⟩ :: used)) (hi : 3 ≤ i) :
    Layout base s fb (⟨o + 2 ^ i, i⟩ :: ⟨o, i⟩ :: used) := by
  obtain ⟨-, hle, hal⟩ := h.shape ⟨o, i + 1⟩ (List.mem_append_left _ List.mem_cons_self)
  dsimp only at hle
  have hal' : 2 ^ i ∣ o := (pow_dvd_pow 2 (Nat.le_succ i)).trans hal
  refine ⟨h.heap, h.base_le, h.brk_le, h.pages, h.heapSize, h.chain, h.listed, fun b hb => ?_,
    (tiles_split.mp h.tiles).perm (List.Perm.swap _ _ _), h.coalesced⟩
  rcases List.mem_cons.mp hb with rfl | hb
  · exact ⟨hi, by dsimp only; omega, hal'.add (dvd_refl _)⟩
  · rcases List.mem_cons.mp hb with rfl | hb
    · exact ⟨hi, by dsimp only; omega, hal'⟩
    · exact h.shape b (List.mem_cons_of_mem _ hb)

/-- Two used halves are exchanged for their block. -/
theorem merge (h : Layout base s fb (Block.buddy ⟨o, i⟩ :: ⟨o, i⟩ :: used)) (hi : i < maxIndex) :
    Layout base s fb (⟨min o (Block.buddy ⟨o, i⟩).offset, i + 1⟩ :: used) := by
  obtain ⟨h3, -, hal⟩ := h.shape ⟨o, i⟩
    (List.mem_append_left _ (List.mem_cons_of_mem _ List.mem_cons_self))
  obtain ⟨hdvd, hmax⟩ := min_buddy hal
  dsimp only at h3 hdvd hmax
  set u := (Block.buddy ⟨o, i⟩).offset with hu
  have hb : Block.buddy ⟨o, i⟩ = ⟨u, i⟩ := rfl
  have hp : ((⟨u, i⟩ : Block) :: ⟨o, i⟩ :: used).Perm
      (⟨min o u, i⟩ :: ⟨min o u + 2 ^ i, i⟩ :: used) := by
    rw [← hmax]
    rcases le_total o u with hle | hle
    · rw [min_eq_left hle, max_eq_right hle]
      exact List.Perm.swap _ _ _
    · rw [min_eq_right hle, max_eq_left hle]
  refine ⟨h.heap, h.base_le, h.brk_le, h.pages, h.heapSize, h.chain, h.listed, fun b hb' => ?_,
    tiles_split.mpr (h.tiles.perm (hp.append_right _)), h.coalesced⟩
  rcases List.mem_cons.mp hb' with rfl | hb'
  · exact ⟨by dsimp only; omega, hi, hdvd⟩
  · exact h.shape b (List.mem_cons_of_mem _ (List.mem_cons_of_mem _ hb'))

end Layout

/-! ## Searching a list -/

section Remove

variable {s : Data ℕ} {address : Word}

/-- The search runs through a list that does not hold the address. -/
theorem fbFind_of_not_mem {xs : List Word} {fuel : ℕ} {f : Field}
    (hc : Chain 0 s.mem (s.next f) xs) (ha : address ∉ xs) (hl : xs.length < fuel) :
    ∃ g, fbFind s address fuel f = some g ∧ s.next g = 0 := by
  induction xs generalizing f fuel with
  | nil =>
    obtain ⟨fuel, rfl⟩ : ∃ n, fuel = n + 1 := ⟨fuel - 1, by simp at hl; omega⟩
    have h₀ : s.next f = 0 := hc
    exact ⟨f, by simp [fbFind, h₀], h₀⟩
  | cons x xs ih =>
    obtain ⟨fuel, rfl⟩ : ∃ n, fuel = n + 1 := ⟨fuel - 1, by simp at hl; omega⟩
    obtain ⟨hx, hx₀, hc⟩ := hc
    have hxa : x ≠ address := fun h => ha (h ▸ List.mem_cons_self)
    have hstep : fbFind s address (fuel + 1) f = fbFind s address fuel (.block x) := by
      rw [fbFind, hx, if_pos ⟨hx₀, hxa⟩]
    rw [hstep]
    exact ih (f := .block x) hc (fun h => ha (List.mem_cons_of_mem _ h)) (by simpa using hl)

/-- The search stops at the field that leads to the address. -/
theorem fbFind_of_mem {ys zs : List Word} {fuel : ℕ} {f : Field}
    (hc : Chain 0 s.mem (s.next f) (ys ++ address :: zs)) (ha : address ∉ ys)
    (hl : ys.length < fuel) :
    fbFind s address fuel f = some ((ys.getLast?.map Field.block).getD f) := by
  induction ys generalizing f fuel with
  | nil =>
    obtain ⟨fuel, rfl⟩ : ∃ n, fuel = n + 1 := ⟨fuel - 1, by simp at hl; omega⟩
    have h₀ : s.next f = address := hc.1
    simp [fbFind, h₀]
  | cons y ys ih =>
    obtain ⟨fuel, rfl⟩ : ∃ n, fuel = n + 1 := ⟨fuel - 1, by simp at hl; omega⟩
    obtain ⟨hy, hy₀, hc⟩ := hc
    have hya : y ≠ address := fun h => ha (h ▸ List.mem_cons_self)
    have hstep : fbFind s address (fuel + 1) f = fbFind s address fuel (.block y) := by
      rw [fbFind, hy, if_pos ⟨hy₀, hya⟩]
    rw [hstep, ih (f := .block y) hc (fun h => ha (List.mem_cons_of_mem _ h)) (by simpa using hl)]
    cases ys with
    | nil => rfl
    | cons z ys => simp [List.getLast?_cons]

/-- Distinct non-null addresses are fewer than `2 ^ 16`. -/
theorem length_lt_of_nodup {xs : List Word} (hn : xs.Nodup) (h₀ : (0 : Word) ∉ xs) :
    xs.length < 2 ^ 16 := by
  have hn' : ((0 :: xs).map BitVec.toNat).Nodup :=
    (List.nodup_cons.mpr ⟨h₀, hn⟩).map fun _ _ h => BitVec.eq_of_toNat_eq h
  have hs : ((0 :: xs).map BitVec.toNat).Subperm (List.range (2 ^ 16)) :=
    List.subperm_of_subset hn' fun x hx => by
      obtain ⟨w, -, rfl⟩ := List.mem_map.mp hx
      exact List.mem_range.mpr w.isLt
  have := hs.length_le
  rw [List.length_range, List.length_map, List.length_cons] at this
  exact this

theorem fbRemove_of_not_mem {xs : List Word} {i : ℕ} (hc : Chain 0 s.mem (s.fbTable i) xs)
    (hn : xs.Nodup) (ha : address ∉ xs) (h₀ : address ≠ 0) :
    fbRemove s i address = some (s, false) := by
  have hz : (0 : Word) ∉ xs := fun h => hc.ne_null h rfl
  obtain ⟨g, hg, hg₀⟩ := fbFind_of_not_mem (f := .table i) hc ha (length_lt_of_nodup hn hz)
  simp only [fbRemove, hg, Option.bind_eq_bind, Option.bind_some, hg₀, if_neg h₀.symm]
  rfl

theorem fbRemove_of_find {i : ℕ} {f : Field}
    (hf : fbFind s address (2 ^ 16) (.table i) = some f) (hn : s.next f = address) :
    fbRemove s i address = some (s.setNext f (s.mem address), true) := by
  rw [fbRemove, hf, Option.bind_eq_bind, Option.bind_some, hn, if_pos rfl]
  rfl

/-- A block on the list is taken off it; no word outside of the list changes. -/
theorem fbRemove_of_mem {xs : List Word} {i : ℕ} (hc : Chain 0 s.mem (s.fbTable i) xs)
    (hn : xs.Nodup) (ha : address ∈ xs) :
    ∃ s', fbRemove s i address = some (s', true) ∧
      (s'.heap = s.heap ∧ s'.heapSize = s.heapSize ∧ s'.brk = s.brk) ∧
      Chain 0 s'.mem (s'.fbTable i) (xs.erase address) ∧
      (∀ j, j ≠ i → s'.fbTable j = s.fbTable j) ∧ ∀ a, a ∉ xs → s'.mem a = s.mem a := by
  obtain ⟨ys, zs, rfl⟩ := List.append_of_mem ha
  have hay : address ∉ ys := fun h =>
    (List.nodup_append.mp hn).2.2 address h address List.mem_cons_self rfl
  have hz : (0 : Word) ∉ ys ++ address :: zs := fun h => hc.ne_null h rfl
  have hl := length_lt_of_nodup hn hz
  have hly : ys.length < 2 ^ 16 := by
    rw [List.length_append] at hl
    omega
  have hf := fbFind_of_mem (f := .table i) hc hay hly
  rw [List.erase_append_right _ hay, List.erase_cons_head]
  -- The field found is the head of the list, or the link of the last block before the address.
  rcases List.eq_nil_or_concat ys with rfl | ⟨ys, y, rfl⟩
  · refine ⟨_, fbRemove_of_find (f := .table i) hf hc.1, ⟨rfl, rfl, rfl⟩, ?_,
      fun j hj => Function.update_of_ne hj _ _, fun _ _ => rfl⟩
    simp only [Data.setNext, Function.update_self, List.nil_append]
    exact hc.2.2
  · rw [List.concat_eq_append] at *
    have hc' : Chain 0 s.mem (s.fbTable i) (ys ++ y :: address :: zs) := by simpa using hc
    have hn' : (ys ++ y :: address :: zs).Nodup := by simpa using hn
    have hlast : (((ys ++ [y]).getLast?.map Field.block).getD (.table i)) = .block y := by simp
    refine ⟨_, fbRemove_of_find (hf.trans (congrArg some hlast)) hc'.next_eq, ⟨rfl, rfl, rfl⟩, ?_,
      fun _ _ => rfl, fun a ha => Function.update_of_ne ?_ _ _⟩
    · simpa [Data.setNext] using hc'.unlink hn'
    · rintro rfl
      exact ha (by simp)

end Remove

end I80k.Libc

import Mathlib

/-!
# Dyadic blocks and tilings

A dyadic block has a power of two as its size. A buddy allocator divides a region into such
blocks, aligned on their size, splits a block into two halves and merges two halves back. A list
of blocks tiles a region when every point of the region lies in exactly one of its entries and no
other point in any: the entries are then disjoint, none is listed twice, and nothing is lost.

## Main definitions

* `Block`: an offset and an index, the block `[offset, offset + 2 ^ index)`
* `Tiles bs R`: the list `bs` covers each point of `R` exactly once, and no other point
* `Block.buddy`: the other half of the block of the next index

## Main results

* `tiles_split`: a block may be exchanged for its two halves
* `Tiles.pairwise`, `Tiles.mem_iff`: a tiling is disjoint and covers its region
* `Tiles.total_eq`: two tilings of one region have the same total size
* `buddy_of_even`, `buddy_of_odd`: the buddy, flipping one bit of the offset, is the block just
  after or just before
* `Tiles.index_eq_of_coalesced`: a tiling without two halves of one block is made of whole blocks
-/

namespace DyadicTiling

/-- The block `[offset, offset + 2 ^ index)`. -/
structure Block where
  offset : ℕ
  index : ℕ
deriving DecidableEq, Repr

namespace Block

instance : Membership ℕ Block := ⟨fun b x => b.offset ≤ x ∧ x < b.offset + 2 ^ b.index⟩

theorem mem_def {b : Block} {x : ℕ} : x ∈ b ↔ b.offset ≤ x ∧ x < b.offset + 2 ^ b.index := Iff.rfl

instance (b : Block) (x : ℕ) : Decidable (x ∈ b) := inferInstanceAs (Decidable (_ ∧ _))

theorem offset_mem (b : Block) : b.offset ∈ b := ⟨le_rfl, Nat.lt_add_of_pos_right (by positivity)⟩

/-- Aligned on its size. -/
def Aligned (b : Block) : Prop := 2 ^ b.index ∣ b.offset

instance (b : Block) : Decidable b.Aligned := inferInstanceAs (Decidable (_ ∣ _))

/-- The other half of the block of the next index. -/
def buddy (b : Block) : Block := ⟨2 ^ b.index ^^^ b.offset, b.index⟩

/-- Disjoint blocks. -/
def Disjoint (a b : Block) : Prop := ∀ x, x ∈ a → x ∉ b

/-- Two aligned blocks that meet are nested. -/
theorem mem_of_meet {a b : Block} (ha : a.Aligned) (hb : b.Aligned) (hle : a.index ≤ b.index)
    {x y : ℕ} (hxa : x ∈ a) (hxb : x ∈ b) (hy : y ∈ a) : y ∈ b := by
  obtain ⟨p, hp⟩ := ha
  obtain ⟨q, hq⟩ := hb
  obtain ⟨k, hk⟩ := Nat.exists_eq_add_of_le hle
  rw [mem_def] at *
  rw [hq, hk, pow_add] at hxb ⊢
  rw [hp] at hxa hy
  set s := 2 ^ a.index
  set t := 2 ^ k
  have hs : 0 < s := by positivity
  -- Both bounds are multiples of `s`, so meeting means `t * q ≤ p < t * q + t`.
  have h₁ : t * q ≤ p := by
    have h : s * (t * q) < s * (p + 1) := by nlinarith
    exact Nat.le_of_lt_succ (Nat.lt_of_mul_lt_mul_left h)
  have h₂ : p < t * q + t := by
    have h : s * p < s * (t * q + t) := by nlinarith
    exact Nat.lt_of_mul_lt_mul_left h
  have h₃ : s * (t * q) ≤ s * p := Nat.mul_le_mul_left s h₁
  have h₄ : s * (p + 1) ≤ s * (t * q + t) := Nat.mul_le_mul_left s h₂
  constructor <;> nlinarith

end Block

/-! ## Buddies -/

section Buddy

/-- Flipping the bit `i` of a multiple of `2 ^ i` flips the parity of the quotient. -/
theorem two_pow_xor_mul (i q : ℕ) : 2 ^ i ^^^ 2 ^ i * q = 2 ^ i * (q ^^^ 1) := by
  have h := (Nat.shiftLeft_xor_distrib (i := i) (a := 1) (b := q))
  rw [Nat.shiftLeft_eq, Nat.shiftLeft_eq, Nat.shiftLeft_eq, one_mul] at h
  rw [mul_comm _ q, ← h, mul_comm, Nat.xor_comm]

theorem buddy_of_even {b : Block} (h : 2 ^ (b.index + 1) ∣ b.offset) :
    b.buddy.offset = b.offset + 2 ^ b.index := by
  obtain ⟨q, hq⟩ := h
  have h₁ : b.offset = 2 ^ b.index * (2 * q) := by rw [hq, pow_succ, mul_assoc]
  have h₂ : (2 * q) ^^^ 1 = 2 * q + 1 := by
    rw [Nat.xor_one_of_even (even_two_mul q)]
  show 2 ^ b.index ^^^ b.offset = _
  rw [h₁, two_pow_xor_mul, h₂]
  ring

theorem buddy_of_odd {b : Block} (ha : b.Aligned) (h : ¬ 2 ^ (b.index + 1) ∣ b.offset) :
    b.offset = b.buddy.offset + 2 ^ b.index ∧ 2 ^ (b.index + 1) ∣ b.buddy.offset := by
  obtain ⟨q, hq⟩ := ha
  rcases Nat.even_or_odd' q with ⟨p, rfl | rfl⟩
  · exact absurd ⟨p, by rw [hq, pow_succ, mul_assoc]⟩ h
  · have h₁ : (2 * p + 1) ^^^ 1 = 2 * p := by
      rw [Nat.xor_one_of_odd (odd_two_mul_add_one p)]
      rfl
    have h₂ : b.buddy.offset = 2 ^ b.index * (2 * p) := by
      show 2 ^ b.index ^^^ b.offset = _
      rw [hq, two_pow_xor_mul, h₁]
    refine ⟨by rw [h₂, hq]; ring, p, by rw [h₂, pow_succ, mul_assoc]⟩

/-- The lower half of a block and its buddy are the two halves of an aligned block. -/
theorem min_buddy {b : Block} (ha : b.Aligned) :
    2 ^ (b.index + 1) ∣ min b.offset b.buddy.offset ∧
      max b.offset b.buddy.offset = min b.offset b.buddy.offset + 2 ^ b.index := by
  by_cases h : 2 ^ (b.index + 1) ∣ b.offset
  · have hb := buddy_of_even h
    rw [hb, min_eq_left (Nat.le_add_right _ _), max_eq_right (Nat.le_add_right _ _)]
    exact ⟨h, rfl⟩
  · obtain ⟨hb, hd⟩ := buddy_of_odd ha h
    have hle : b.buddy.offset ≤ b.offset := by omega
    rw [min_eq_right hle, max_eq_left hle]
    exact ⟨hd, hb⟩

/-- The buddy of a block of a region made of larger blocks lies in the region. -/
theorem parent_end_le {b : Block} (ha : b.Aligned) {n : ℕ} (hn : 2 ^ (b.index + 1) ∣ n)
    (hb : b.offset < n) : min b.offset b.buddy.offset + 2 ^ (b.index + 1) ≤ n := by
  obtain ⟨q, hq⟩ := hn
  obtain ⟨p, hp⟩ := (min_buddy ha).1
  have hpq : 2 ^ (b.index + 1) * p < 2 ^ (b.index + 1) * q := by
    rw [← hp, ← hq]
    exact lt_of_le_of_lt (min_le_left _ _) hb
  rw [hp, hq, ← Nat.mul_succ]
  exact Nat.mul_le_mul_left _ (Nat.lt_of_mul_lt_mul_left hpq)

theorem buddy_lt {b : Block} (ha : b.Aligned) {n : ℕ} (hn : 2 ^ (b.index + 1) ∣ n)
    (hb : b.offset < n) : b.buddy.offset < n := by
  have h₁ := parent_end_le ha hn hb
  have h₂ := (min_buddy ha).2
  have h₃ : 0 < 2 ^ b.index := by positivity
  have h₄ : 2 ^ (b.index + 1) = 2 ^ b.index + 2 ^ b.index := by ring
  omega

theorem buddy_aligned {b : Block} (ha : b.Aligned) : b.buddy.Aligned := by
  obtain ⟨q, hq⟩ := ha
  exact ⟨q ^^^ 1, by show 2 ^ b.index ^^^ b.offset = _; rw [hq, two_pow_xor_mul]; rfl⟩

@[simp] theorem buddy_index (b : Block) : b.buddy.index = b.index := rfl

@[simp] theorem buddy_buddy (b : Block) : b.buddy.buddy = b := by
  rcases b with ⟨o, i⟩
  simp [Block.buddy]

theorem buddy_ne_self (b : Block) : b.buddy.offset ≠ b.offset := by
  intro h
  have h' : 2 ^ b.index ^^^ b.offset ^^^ b.offset = b.offset ^^^ b.offset :=
    congrArg (· ^^^ b.offset) h
  rw [Nat.xor_assoc, Nat.xor_self, Nat.xor_zero] at h'
  exact absurd h' (by positivity)

end Buddy

/-! ## Tilings -/

/-- The number of entries of `bs` that contain `x`. -/
def cover (bs : List Block) (x : ℕ) : ℕ := bs.countP (x ∈ ·)

@[simp] theorem cover_nil (x : ℕ) : cover [] x = 0 := rfl

theorem cover_cons (b : Block) (bs : List Block) (x : ℕ) :
    cover (b :: bs) x = cover bs x + if x ∈ b then 1 else 0 := by
  simp [cover, List.countP_cons]

open Classical in
/-- Each point of `R` lies in exactly one entry of `bs`, and no other point in any. -/
def Tiles (bs : List Block) (R : Set ℕ) : Prop :=
  ∀ x, cover bs x = if x ∈ R then 1 else 0

theorem Tiles.perm {bs bs' : List Block} {R : Set ℕ} (h : Tiles bs R) (hp : bs.Perm bs') :
    Tiles bs' R := fun x => (hp.countP_eq _).symm.trans (h x)

theorem tiles_nil : Tiles [] (Set.Iio 0) := fun x => by simp

theorem Tiles.cover_le_one {bs : List Block} {R : Set ℕ} (h : Tiles bs R) (x : ℕ) :
    cover bs x ≤ 1 := by
  rw [h x]
  split_ifs <;> omega

/-- A tiling covers its region. -/
theorem Tiles.mem_iff {bs : List Block} {R : Set ℕ} (h : Tiles bs R) (x : ℕ) :
    (∃ b ∈ bs, x ∈ b) ↔ x ∈ R := by
  have hx : 0 < cover bs x ↔ ∃ b ∈ bs, x ∈ b := by simp [cover, List.countP_pos_iff]
  rw [← hx, h x]
  split_ifs with hR <;> simp [hR]

/-- The entries of a tiling are disjoint; none is listed twice. -/
theorem Tiles.pairwise {bs : List Block} {R : Set ℕ} (h : Tiles bs R) :
    bs.Pairwise Block.Disjoint := by
  have hle := h.cover_le_one
  clear h
  induction bs with
  | nil => exact List.Pairwise.nil
  | cons b bs ih =>
    have hb : ∀ x, cover bs x + (if x ∈ b then 1 else 0) ≤ 1 := fun x => by
      rw [← cover_cons]
      exact hle x
    refine List.Pairwise.cons (fun c hc x hxb hxc => ?_) (ih fun x => ?_)
    · have h₁ : 0 < cover bs x := List.countP_pos_iff.mpr ⟨c, hc, by simpa using hxc⟩
      have h₂ := hb x
      rw [if_pos hxb] at h₂
      omega
    · have := hb x
      omega

/-- The entries other than the first do not meet it. -/
theorem Tiles.disjoint_head {b : Block} {bs : List Block} {R : Set ℕ} (h : Tiles (b :: bs) R)
    {c : Block} (hc : c ∈ bs) : b.Disjoint c :=
  List.rel_of_pairwise_cons h.pairwise hc

/-- **Splitting and merging**: a block may be exchanged for its two halves. -/
theorem tiles_split {o i : ℕ} {bs : List Block} {R : Set ℕ} :
    Tiles (⟨o, i + 1⟩ :: bs) R ↔ Tiles (⟨o, i⟩ :: ⟨o + 2 ^ i, i⟩ :: bs) R := by
  refine forall_congr' fun x => ?_
  have hpow : 2 ^ (i + 1) = 2 ^ i + 2 ^ i := by ring
  have hpos : 0 < 2 ^ i := by positivity
  have hx : (if x ∈ (⟨o, i + 1⟩ : Block) then 1 else 0) =
      (if x ∈ (⟨o + 2 ^ i, i⟩ : Block) then 1 else 0) + if x ∈ (⟨o, i⟩ : Block) then 1 else 0 := by
    simp only [Block.mem_def, hpow]
    split_ifs <;> omega
  rw [cover_cons, cover_cons, cover_cons, hx, add_assoc]

/-- The sum of the sizes of the blocks. -/
def total (bs : List Block) : ℕ := (bs.map fun b => 2 ^ b.index).sum

@[simp] theorem total_cons (b : Block) (bs : List Block) : total (b :: bs) = 2 ^ b.index + total bs := rfl

theorem total_append (bs bs' : List Block) : total (bs ++ bs') = total bs + total bs' := by
  simp [total]

theorem total_perm {bs bs' : List Block} (hp : bs.Perm bs') : total bs = total bs' :=
  (hp.map _).sum_eq

/-- The size of a block is the number of its points. -/
theorem sum_mem {b : Block} {n : ℕ} (h : b.offset + 2 ^ b.index ≤ n) :
    ∑ x ∈ Finset.range n, (if x ∈ b then 1 else 0) = 2 ^ b.index := by
  have hfilter : (Finset.range n).filter (· ∈ b) = Finset.Ico b.offset (b.offset + 2 ^ b.index) := by
    ext x
    simp only [Finset.mem_filter, Finset.mem_range, Finset.mem_Ico, Block.mem_def]
    omega
  rw [← Finset.card_filter, hfilter, Nat.card_Ico, Nat.add_sub_cancel_left]

/-- Counting the points of the blocks, with how often they are covered. -/
theorem sum_cover {bs : List Block} {n : ℕ} (h : ∀ b ∈ bs, b.offset + 2 ^ b.index ≤ n) :
    ∑ x ∈ Finset.range n, cover bs x = total bs := by
  induction bs with
  | nil => simp [total]
  | cons b bs ih =>
    have ih' := ih fun c hc => h c (List.mem_cons_of_mem _ hc)
    simp only [cover_cons, Finset.sum_add_distrib]
    rw [ih', sum_mem (h b List.mem_cons_self), total_cons, Nat.add_comm]

theorem exists_bound (bs : List Block) : ∃ n, ∀ b ∈ bs, b.offset + 2 ^ b.index ≤ n := by
  induction bs with
  | nil => exact ⟨0, by simp⟩
  | cons b bs ih =>
    obtain ⟨n, hn⟩ := ih
    refine ⟨max n (b.offset + 2 ^ b.index), fun c hc => ?_⟩
    rcases List.mem_cons.mp hc with rfl | hc
    · exact le_max_right _ _
    · exact (hn c hc).trans (le_max_left _ _)

/-- **Conservation**: two tilings of one region have the same total size. -/
theorem Tiles.total_eq {bs bs' : List Block} {R : Set ℕ} (h : Tiles bs R) (h' : Tiles bs' R) :
    total bs = total bs' := by
  obtain ⟨n, hn⟩ := exists_bound (bs ++ bs')
  have hleft := sum_cover fun b hb => hn b (List.mem_append_left _ hb)
  have hright := sum_cover fun b hb => hn b (List.mem_append_right _ hb)
  rw [← hleft, ← hright]
  refine Finset.sum_congr rfl fun x _ => ?_
  rw [h x, h' x]

/-- Disjoint blocks that lie in other blocks are not larger in total. -/
theorem total_le_of_subset {l l' : List Block} (hone : ∀ x, cover l x ≤ 1)
    (hsub : ∀ x, (∃ b ∈ l, x ∈ b) → ∃ b ∈ l', x ∈ b) : total l ≤ total l' := by
  obtain ⟨n, hn⟩ := exists_bound (l ++ l')
  rw [← sum_cover fun b hb => hn b (List.mem_append_left _ hb),
    ← sum_cover fun b hb => hn b (List.mem_append_right _ hb)]
  refine Finset.sum_le_sum fun x _ => ?_
  rcases Nat.eq_zero_or_pos (cover l x) with hzero | hpos
  · omega
  · obtain ⟨b, hb, hx⟩ := List.countP_pos_iff.mp hpos
    have hpos' : 0 < cover l' x := by
      obtain ⟨b', hb', hx'⟩ := hsub x ⟨b, hb, of_decide_eq_true hx⟩
      exact List.countP_pos_iff.mpr ⟨b', hb', decide_eq_true hx'⟩
    have := hone x
    omega

/-- A block put at the end of a tiled segment. -/
theorem Tiles.grow {n i : ℕ} {bs : List Block} (h : Tiles bs (Set.Iio n)) :
    Tiles (⟨n, i⟩ :: bs) (Set.Iio (n + 2 ^ i)) := by
  intro x
  have hpos : 0 < 2 ^ i := by positivity
  rw [cover_cons, h x]
  simp only [Set.mem_Iio, Block.mem_def]
  split_ifs <;> omega

/-- **Full coalescing**: a tiling of whole blocks by aligned blocks, no two of which are the halves
of one block, is made of whole blocks only. -/
theorem Tiles.index_eq_of_coalesced {n m : ℕ} {bs : List Block} (h : Tiles bs (Set.Iio n))
    (hn : 2 ^ m ∣ n) (ha : ∀ b ∈ bs, b.Aligned) (hm : ∀ b ∈ bs, b.index ≤ m)
    (hb : ∀ b ∈ bs, b.index < m → b.buddy ∉ bs) : ∀ b ∈ bs, b.index = m := by
  -- By strong induction on the index: below the smallest index there is nothing to merge with.
  suffices H : ∀ i < m, ∀ b ∈ bs, b.index ≠ i by
    intro b hbm
    rcases (hm b hbm).lt_or_eq with hlt | heq
    · exact absurd rfl (H b.index hlt b hbm)
    · exact heq
  intro i
  induction i using Nat.strong_induction_on with
  | _ i ih =>
    rintro him b hbm rfl
    -- The block that covers the start of the buddy of `b`.
    have hpar : 2 ^ (b.index + 1) ∣ n := (pow_dvd_pow 2 him).trans hn
    obtain ⟨hdvd, hmax⟩ := min_buddy (ha b hbm)
    have hlt : b.offset < n := (h.mem_iff _).mp ⟨b, hbm, b.offset_mem⟩
    have hpos : 0 < 2 ^ b.index := by positivity
    have hpow : 2 ^ (b.index + 1) = 2 ^ b.index + 2 ^ b.index := by ring
    have hbn := buddy_lt (ha b hbm) hpar hlt
    obtain ⟨c, hc, hcx⟩ := (h.mem_iff _).mpr hbn
    have hci : b.index ≤ c.index := by
      by_contra hlt'
      exact ih c.index (by omega) (by omega) c hc rfl
    rcases hci.lt_or_eq with hlt' | heq
    · -- A larger block contains the common parent, hence `b` itself.
      have hal : (⟨min b.offset b.buddy.offset, b.index + 1⟩ : Block).Aligned := hdvd
      have hbc : b.offset ∈ c := by
        refine Block.mem_of_meet hal (ha c hc) hlt' (x := b.buddy.offset) ?_ hcx ?_
        · exact ⟨min_le_right _ _, by dsimp only; omega⟩
        · exact ⟨min_le_left _ _, by dsimp only; omega⟩
      have hne : b ≠ c := fun hbc' => by rw [hbc'] at hlt'; exact lt_irrefl _ hlt'
      rcases List.mem_iff_append.mp hbm with ⟨s, t, rfl⟩
      have hd := (h.perm (@List.perm_middle _ b s t)).disjoint_head (c := c) (by
        rcases List.mem_append.mp hc with hc | hc
        · exact List.mem_append_left _ hc
        · rcases List.mem_cons.mp hc with rfl | hc
          · exact absurd rfl hne
          · exact List.mem_append_right _ hc)
      exact hd _ b.offset_mem hbc
    · -- A block of the same index is the buddy.
      have hal := buddy_aligned (ha b hbm)
      have hoff : c.offset ∈ b.buddy := Block.mem_of_meet (ha c hc) hal
        (by rw [buddy_index]; exact heq.ge) hcx b.buddy.offset_mem c.offset_mem
      have hceq : c = b.buddy := by
        have h₁ := hoff.1
        have h₂ := hcx.1
        rcases c with ⟨co, ci⟩
        dsimp only at h₁ h₂ heq ⊢
        exact congrArg₂ Block.mk (le_antisymm h₂ h₁) heq.symm
      exact hb b hbm him (hceq ▸ hc)

end DyadicTiling

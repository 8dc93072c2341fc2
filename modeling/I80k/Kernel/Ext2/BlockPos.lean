import I80k.Kernel.Ext2.InodeAddr

/-!
# Positions of blocks

A logical block is found through the pointers of the inode: directly, or through up to three blocks of
pointers. Its position is the index of a pointer in the inode, and then the digits of a number, in the base of
the pointers to a block. A position has one logical block, and a logical block one position, as far as three
levels reach.

The numbers have 32 bits. For the block sizes that the driver takes nothing overflows, and nothing is
subtracted from a number that is less.

## Main definitions

* `radixNumber`, `lowerBlocks`, `blockNumber`: the logical block of a position
* `IsBlockPos`: the positions
* `Ext2.blockPointerPosResults`: the exact results of the arithmetic

## Main results

* `blockNumber_pointerPath`, `pointerPath_blockNumber`: each is the inverse of the other
* `Ext2.calculateBlockPointerPos_iff`: what `ext2_calculate_block_pointer_pos` computes
* `block_pointer_pos_encoding`: positions are a bijective encoding, computed without overflow
-/

namespace I80k.Kernel

/-- The number with these digits, the highest one first. -/
def radixNumber (p : ℕ) (digits : List ℕ) : ℕ := digits.foldl (fun n d => p * n + d) 0

/-- The number of logical blocks that are found with less than `level` blocks of pointers. -/
def lowerBlocks (p : ℕ) : ℕ → ℕ
  | 0 => 0
  | 1 => Ext2.ndirBlocks
  | level + 2 => lowerBlocks p (level + 1) + p ^ (level + 1)

/-- The logical block of a position. -/
def blockNumber (p : ℕ) : List ℕ → ℕ
  | [] => 0
  | [b] => b
  | _ :: digits => lowerBlocks p digits.length + radixNumber p digits

/-- A position: a direct block, or the pointer for a level, with an index for each of its blocks. -/
def IsBlockPos (p : ℕ) (pos : List ℕ) : Prop :=
  (∃ b, b < Ext2.ndirBlocks ∧ pos = [b]) ∨
    ∃ digits, 1 ≤ digits.length ∧ digits.length ≤ 3 ∧ (∀ d ∈ digits, d < p) ∧
      pos = (Ext2.ndirBlocks + (digits.length - 1)) :: digits

/-- The exact results of the arithmetic of `ext2_calculate_block_pointer_pos`, in order. -/
def Ext2.blockPointerPosResults (fs : Ext2) (blockToFind : ℕ) : List ℤ :=
  if blockToFind < ndirBlocks then []
  else
    let perBlock := fs.addrPerBlock
    ((blockToFind : ℤ) - ndirBlocks) ::
      let blockToFind := blockToFind - ndirBlocks
      if blockToFind < perBlock then []
      else
        ((blockToFind : ℤ) - perBlock) :: ((perBlock * perBlock : ℕ) : ℤ) ::
          let blockToFind := blockToFind - perBlock
          let per2ndBlock := toUint32 (perBlock * perBlock)
          if blockToFind < per2ndBlock then [((blockToFind / perBlock : ℕ) : ℤ), ((blockToFind % perBlock : ℕ) : ℤ)]
          else
            ((blockToFind : ℤ) - per2ndBlock) :: ((per2ndBlock * perBlock : ℕ) : ℤ) ::
              let blockToFind := blockToFind - per2ndBlock
              if blockToFind < toUint32 (per2ndBlock * perBlock) then
                [((blockToFind / per2ndBlock : ℕ) : ℤ), ((blockToFind % per2ndBlock : ℕ) : ℤ),
                  ((blockToFind % per2ndBlock / perBlock : ℕ) : ℤ), ((blockToFind % per2ndBlock % perBlock : ℕ) : ℤ)]
              else []

/-! ## Numbers and digits -/

section Digits

variable {p n a b c : ℕ} {pos : List ℕ}

theorem radix_lt {k : ℕ} (ha : a < k) (hb : b < p) : p * a + b < p * k :=
  calc p * a + b < p * a + p := Nat.add_lt_add_left hb _
    _ = p * (a + 1) := (Nat.mul_succ p a).symm
    _ ≤ p * k := Nat.mul_le_mul_left p ha

theorem radix_div (hb : b < p) : (p * a + b) / p = a := by
  rw [Nat.mul_add_div (by omega), Nat.div_eq_of_lt hb, Nat.add_zero]

theorem radix_mod (hb : b < p) : (p * a + b) % p = b := by
  rw [Nat.mul_add_mod, Nat.mod_eq_of_lt hb]

theorem lowerBlocks_four (p : ℕ) : lowerBlocks p 4 = 12 + p + p * p + p * p * p := by
  simp only [lowerBlocks, Ext2.ndirBlocks]
  ring

theorem blockNumber_single (i : ℕ) : blockNumber p [i, a] = 12 + a := by
  simp [blockNumber, lowerBlocks, radixNumber, Ext2.ndirBlocks]

theorem blockNumber_double (i : ℕ) : blockNumber p [i, a, b] = 12 + p + (p * a + b) := by
  simp [blockNumber, lowerBlocks, radixNumber, Ext2.ndirBlocks]

theorem blockNumber_triple (i : ℕ) : blockNumber p [i, a, b, c] = 12 + p + p * p + (p * (p * a + b) + c) := by
  simp [blockNumber, lowerBlocks, radixNumber, Ext2.ndirBlocks, pow_two]

/-- The position of a block is a position, and that of this block. -/
theorem blockNumber_pointerPath (hp : 0 < p) (hn : n < lowerBlocks p 4) :
    IsBlockPos p (pointerPath p n) ∧ blockNumber p (pointerPath p n) = n := by
  rw [lowerBlocks_four] at hn
  have hdigits : ∀ j ∈ (pointerPath p n).tail, j < p := fun j => Ext2.lt_of_mem_pointerPath hp hn
  rw [pointerPath] at hdigits ⊢
  split_ifs at hdigits ⊢ with h₁ h₂ h₃
  · exact ⟨.inl ⟨n, h₁, rfl⟩, rfl⟩
  · refine ⟨.inr ⟨[_], by simp, by simp, hdigits, rfl⟩, ?_⟩
    rw [blockNumber_single]
    omega
  · refine ⟨.inr ⟨[_, _], by simp, by simp, hdigits, rfl⟩, ?_⟩
    rw [blockNumber_double, Nat.div_add_mod]
    omega
  · refine ⟨.inr ⟨[_, _, _], by simp, by simp, hdigits, rfl⟩, ?_⟩
    rw [blockNumber_triple, ← Nat.div_div_eq_div_mul, Nat.div_add_mod, Nat.div_add_mod]
    omega

theorem pointerPath_single (ha : a < p) : pointerPath p (12 + a) = [12, a] := by
  rw [pointerPath, if_neg (by omega), if_pos (by omega), Nat.add_sub_cancel_left]

theorem pointerPath_double (ha : a < p) (hb : b < p) : pointerPath p (12 + p + (p * a + b)) = [13, a, b] := by
  have hlt := radix_lt ha hb
  have hrest : 12 + p + (p * a + b) - 12 - p = p * a + b := by omega
  rw [pointerPath, if_neg (by omega), if_neg (by omega), if_pos (by omega), hrest, radix_div hb, radix_mod hb]

theorem pointerPath_triple (hb : b < p) (hc : c < p) :
    pointerPath p (12 + p + p * p + (p * (p * a + b) + c)) = [14, a, b, c] := by
  have hrest : 12 + p + p * p + (p * (p * a + b) + c) - 12 - p - p * p = p * (p * a + b) + c := by omega
  rw [pointerPath, if_neg (by omega), if_neg (by omega), if_neg (by omega), hrest, ← Nat.div_div_eq_div_mul,
    radix_div hc, radix_mod hc, radix_div hb, radix_mod hb]

/-- The block of a position has this position. -/
theorem pointerPath_blockNumber (hpos : IsBlockPos p pos) :
    pointerPath p (blockNumber p pos) = pos ∧ blockNumber p pos < lowerBlocks p 4 := by
  rw [lowerBlocks_four]
  rcases hpos with ⟨b, hb, rfl⟩ | ⟨digits, hlo, hhi, hdigits, rfl⟩
  · have hb' : b < 12 := hb
    exact ⟨if_pos hb', by rw [blockNumber]; omega⟩
  · have hlength : digits.length = 1 ∨ digits.length = 2 ∨ digits.length = 3 := by omega
    rcases hlength with hlen | hlen | hlen
    · obtain ⟨a, rfl⟩ := List.length_eq_one_iff.mp hlen
      have ha : a < p := hdigits a (by simp)
      rw [blockNumber_single]
      exact ⟨pointerPath_single ha, by omega⟩
    · obtain ⟨a, b, rfl⟩ := List.length_eq_two.mp hlen
      have ha : a < p := hdigits a (by simp)
      have hb : b < p := hdigits b (by simp)
      have hlt := radix_lt ha hb
      rw [blockNumber_double]
      exact ⟨pointerPath_double ha hb, by omega⟩
    · obtain ⟨a, b, c, rfl⟩ := List.length_eq_three.mp hlen
      have ha : a < p := hdigits a (by simp)
      have hb : b < p := hdigits b (by simp)
      have hc : c < p := hdigits c (by simp)
      have hlt : p * (p * a + b) + c < p * (p * p) := radix_lt (radix_lt ha hb) hc
      rw [blockNumber_triple, Nat.mul_assoc p p p]
      exact ⟨pointerPath_triple hb hc, by omega⟩

end Digits

/-! ## What the driver computes -/

namespace Ext2

variable {fs : Ext2} {n : ℕ} {pos : List ℕ}

/-- The powers of the number of pointers to a block have 32 bits. -/
theorem toUint32_powers (hlog : fs.logBlockSize ≤ 2) :
    toUint32 (fs.addrPerBlock * fs.addrPerBlock) = fs.addrPerBlock * fs.addrPerBlock ∧
      toUint32 (fs.addrPerBlock * fs.addrPerBlock * fs.addrPerBlock) =
        fs.addrPerBlock * fs.addrPerBlock * fs.addrPerBlock := by
  obtain ⟨-, -, hhi, hper⟩ := blockSize_of_le hlog
  have hle : fs.addrPerBlock ≤ 1024 := by omega
  constructor
  · apply toUint32_of_lt
    calc fs.addrPerBlock * fs.addrPerBlock ≤ 1024 * 1024 := Nat.mul_le_mul hle hle
      _ < 2 ^ 32 := by norm_num
  · apply toUint32_of_lt
    calc fs.addrPerBlock * fs.addrPerBlock * fs.addrPerBlock ≤ 1024 * 1024 * 1024 :=
          Nat.mul_le_mul (Nat.mul_le_mul hle hle) hle
      _ < 2 ^ 32 := by norm_num

theorem addrPerBlock_eq (hlog : fs.logBlockSize ≤ 2) : fs.addrPerBlock = 256 * 2 ^ fs.logBlockSize := by
  obtain ⟨hsize, -, -, hper⟩ := blockSize_of_le hlog
  omega

/-- A block that is too big has no position. -/
theorem calculateBlockPointerPos_eq_none (hlog : fs.logBlockSize ≤ 2) (hn : lowerBlocks fs.addrPerBlock 4 ≤ n) :
    fs.ext2CalculateBlockPointerPos n = none := by
  obtain ⟨hsq, hcube⟩ := toUint32_powers hlog
  rw [lowerBlocks_four] at hn
  rw [ext2CalculateBlockPointerPos]
  simp only [hsq, hcube, ndirBlocks]
  rw [if_neg (by omega), if_neg (by omega), if_neg (by omega), if_neg (by omega)]

/-- **The positions that the driver computes** are those of the blocks. -/
theorem calculateBlockPointerPos_iff (hlog : fs.logBlockSize ≤ 2) :
    fs.ext2CalculateBlockPointerPos n = some pos ↔
      IsBlockPos fs.addrPerBlock pos ∧ blockNumber fs.addrPerBlock pos = n := by
  obtain ⟨-, hlo, -, hper⟩ := blockSize_of_le hlog
  have hpath : n < lowerBlocks fs.addrPerBlock 4 →
      fs.ext2CalculateBlockPointerPos n = some (pointerPath fs.addrPerBlock n) := by
    intro hn
    rw [lowerBlocks_four] at hn
    rw [calculateBlockPointerPos_eq hlog hn, show fs.blockSize / 4 = fs.addrPerBlock by omega]
  constructor
  · intro h
    rcases Nat.lt_or_ge n (lowerBlocks fs.addrPerBlock 4) with hn | hn
    · rw [hpath hn] at h
      obtain rfl := Option.some.inj h
      exact blockNumber_pointerPath (by omega) hn
    · rw [calculateBlockPointerPos_eq_none hlog hn] at h
      cases h
  · rintro ⟨hpos, rfl⟩
    obtain ⟨heq, hlt⟩ := pointerPath_blockNumber hpos
    rw [hpath hlt, heq]

theorem calculateBlockPointerPos_isSome (hlog : fs.logBlockSize ≤ 2) :
    (fs.ext2CalculateBlockPointerPos n).isSome ↔ n < lowerBlocks fs.addrPerBlock 4 := by
  constructor
  · intro h
    obtain ⟨pos, hcalc⟩ := Option.isSome_iff_exists.mp h
    obtain ⟨hpos, rfl⟩ := (calculateBlockPointerPos_iff hlog).mp hcalc
    exact (pointerPath_blockNumber hpos).2
  · intro hn
    by_contra hnone
    obtain ⟨-, hlo, -, hper⟩ := blockSize_of_le hlog
    have hpos := (calculateBlockPointerPos_iff hlog).mpr (blockNumber_pointerPath (by omega) hn)
    simp [hpos] at hnone

/-- **Nothing overflows**, and no difference is negative. -/
theorem blockPointerPosResults_lt (hlog : fs.logBlockSize ≤ 2) (hn : n < 2 ^ 32) :
    ∀ r ∈ fs.blockPointerPosResults n, 0 ≤ r ∧ r < 2 ^ 32 := by
  obtain ⟨-, -, hhi, hper⟩ := blockSize_of_le hlog
  obtain ⟨hsq, hcube⟩ := toUint32_powers hlog
  have hle : fs.addrPerBlock ≤ 1024 := by omega
  have hsqle : fs.addrPerBlock * fs.addrPerBlock ≤ 1024 * 1024 := Nat.mul_le_mul hle hle
  have hcubele : fs.addrPerBlock * fs.addrPerBlock * fs.addrPerBlock ≤ 1024 * 1024 * 1024 := Nat.mul_le_mul hsqle hle
  have hnat : ∀ m : ℕ, m < 2 ^ 32 → 0 ≤ (m : ℤ) ∧ (m : ℤ) < 2 ^ 32 := by omega
  intro r hr
  rw [blockPointerPosResults] at hr
  simp only [hsq, hcube, ndirBlocks] at hr
  split_ifs at hr with h₁ h₂ h₃ h₄
  · cases hr
  · simp only [List.mem_cons, List.not_mem_nil, or_false] at hr
    omega
  · -- a quotient and a remainder are not larger than the number
    have hdiv := Nat.div_le_self (n - 12 - fs.addrPerBlock) fs.addrPerBlock
    have hmod := Nat.mod_le (n - 12 - fs.addrPerBlock) fs.addrPerBlock
    simp only [List.mem_cons, List.not_mem_nil, or_false] at hr
    rcases hr with rfl | rfl | rfl | rfl | rfl
    · omega
    · omega
    · exact hnat _ (by omega)
    · exact hnat _ (by omega)
    · exact hnat _ (by omega)
  · generalize fs.addrPerBlock * fs.addrPerBlock = square at *
    generalize hm : n - 12 - fs.addrPerBlock - square = m at *
    have hdiv := Nat.div_le_self m square
    have hmod := Nat.mod_le m square
    have hdiv' := Nat.div_le_self (m % square) fs.addrPerBlock
    have hmod' := Nat.mod_le (m % square) fs.addrPerBlock
    simp only [List.mem_cons, List.not_mem_nil, or_false] at hr
    rcases hr with rfl | rfl | rfl | rfl | rfl | rfl | rfl | rfl | rfl
    · omega
    · omega
    · exact hnat _ (by omega)
    · omega
    · exact hnat _ (by omega)
    · exact hnat _ (by omega)
    · exact hnat _ (by omega)
    · exact hnat _ (by omega)
    · exact hnat _ (by omega)
  · simp only [List.mem_cons, List.not_mem_nil, or_false] at hr
    rcases hr with rfl | rfl | rfl | rfl | rfl
    · omega
    · omega
    · exact hnat _ (by omega)
    · omega
    · exact hnat _ (by omega)

end Ext2

/-- **Block pointer positions are a bijective encoding.** For the block sizes 1024, 2048 and 4096 and every logical
block: nothing overflows, there is a position exactly up to three levels, and this is the position of that block
alone. Every position is the one of a block. -/
theorem block_pointer_pos_encoding (fs : Ext2) (hlog : fs.logBlockSize ≤ 2) :
    fs.addrPerBlock = 256 * 2 ^ fs.logBlockSize ∧
      (∀ n : BitVec 32, (∀ r ∈ fs.blockPointerPosResults n.toNat, 0 ≤ r ∧ r < 2 ^ 32) ∧
        ((fs.ext2CalculateBlockPointerPos n.toNat).isSome ↔
          n.toNat < 12 + fs.addrPerBlock + fs.addrPerBlock ^ 2 + fs.addrPerBlock ^ 3) ∧
        ∀ pos, fs.ext2CalculateBlockPointerPos n.toNat = some pos →
          IsBlockPos fs.addrPerBlock pos ∧ blockNumber fs.addrPerBlock pos = n.toNat ∧
            ∀ n' : BitVec 32, fs.ext2CalculateBlockPointerPos n'.toNat = some pos → n' = n) ∧
      ∀ pos, IsBlockPos fs.addrPerBlock pos →
        ∃ n : BitVec 32, fs.ext2CalculateBlockPointerPos n.toNat = some pos := by
  have hbound : lowerBlocks fs.addrPerBlock 4 =
      12 + fs.addrPerBlock + fs.addrPerBlock ^ 2 + fs.addrPerBlock ^ 3 := by
    rw [lowerBlocks_four]
    ring
  refine ⟨Ext2.addrPerBlock_eq hlog, fun n => ⟨Ext2.blockPointerPosResults_lt hlog n.isLt, ?_, fun pos hpos => ?_⟩,
    fun pos hpos => ?_⟩
  · rw [← hbound]
    exact Ext2.calculateBlockPointerPos_isSome hlog
  · obtain ⟨hvalid, hnumber⟩ := (Ext2.calculateBlockPointerPos_iff hlog).mp hpos
    refine ⟨hvalid, hnumber, fun n' hpos' => ?_⟩
    have hnumber' := ((Ext2.calculateBlockPointerPos_iff hlog).mp hpos').2
    exact BitVec.eq_of_toNat_eq (hnumber'.symm.trans hnumber)
  · have hlt : blockNumber fs.addrPerBlock pos < 2 ^ 32 := by
      obtain ⟨-, -, hhi, hper⟩ := Ext2.blockSize_of_le hlog
      have hle : fs.addrPerBlock ≤ 1024 := by omega
      have hsq : fs.addrPerBlock * fs.addrPerBlock ≤ 1024 * 1024 := Nat.mul_le_mul hle hle
      have hcube : fs.addrPerBlock * fs.addrPerBlock * fs.addrPerBlock ≤ 1024 * 1024 * 1024 := Nat.mul_le_mul hsq hle
      have hlast := (pointerPath_blockNumber hpos).2
      rw [lowerBlocks_four] at hlast
      omega
    refine ⟨BitVec.ofNat 32 (blockNumber fs.addrPerBlock pos), ?_⟩
    rw [BitVec.toNat_ofNat, Nat.mod_eq_of_lt hlt]
    exact (Ext2.calculateBlockPointerPos_iff hlog).mpr ⟨hpos, rfl⟩

/-- A position on the second level, for blocks of 1024 bytes. -/
theorem block_pointer_pos_encoding_second :
    ∃ n : BitVec 32, twoGroups.ext2CalculateBlockPointerPos n.toNat = some [13, 3, 5] := by
  have hpos : IsBlockPos twoGroups.addrPerBlock [13, 3, 5] := .inr ⟨[3, 5], by decide, by decide, by decide, rfl⟩
  exact (block_pointer_pos_encoding twoGroups (by decide)).2.2 _ hpos

end I80k.Kernel

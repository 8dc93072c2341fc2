import I80k.Kernel.Cf20Identity
import I80k.Kernel.Heap
import I80k.Lib.Loop

/-!
# The identity of a card

`cf20_identify` of `cf20_cmds.c`: the driver asks the card for its identity, pulls a sector of bytes from it, and
parses the words of the sector. The sector goes to a buffer that is allocated for it, with as many bytes as the
sector has words; the bytes from the middle of the sector on are stored behind the buffer.

The card answers with any bytes. Every access to the buffer, and to a character of the identity, is written down. The
wait for the card is bounded by a number of turns, that can be any number; without a result the function does not
return. `struct cf20_private` and the identity are kept apart from the memory: if a store behind the buffer changes
them, the function goes on with other values than here.

## Main definitions

* `CardBytes`: what the card answers
* `cf20Identify`: the function
* `StaysInside`: every access is inside of the buffer or of its string, and the strings are terminated

## Main results

* `cf20_identify_inside_iff`: the accesses to the buffer are inside exactly if there are none
* `cf20_identify_inside_sector`: they are inside of a buffer of the size of the sector
* `provides_sector_iff`: the sectors that the block of the buffer has bytes for
* `cf20_identify_strings`: the bytes of the card that the strings are made of
-/

namespace I80k.Kernel

open Libc Logged

variable {β : Type}

/-! ## The function -/

/-- What is read from the card, in order. -/
structure CardBytes where
  /-- From its status register. -/
  status : ℕ → BitVec 8
  /-- From its data register. -/
  data : ℕ → BitVec 8

/-- `SR_BSY` is set in the status. -/
def Busy (status : BitVec 8) : Prop := status &&& 0x80 ≠ 0

instance (status : BitVec 8) : Decidable (Busy status) := inferInstanceAs (Decidable (_ ≠ _))

/-- A turn of `while (inb(pdev->regs.status) & SR_BSY);`. -/
def busyTurn (card : CardBytes) (n : ℕ) : ℕ ⊕ Unit := if Busy (card.status n) then .inl (n + 1) else .inr ()

namespace Identifying

/-- The loop that pulls the sector. -/
def pull (s : Identifying β) (card : CardBytes) (sectorSz : ℕ) : Identifying β :=
  (List.range sectorSz).foldl (fun s i => s.storeByte i (card.data i)) s

/-- `free(buf)` and the return, if the call of `free` returns. -/
def freeBuf (s : Identifying β) (result : Bool) : Option Bool × Identifying β :=
  match free s.data s.buf with
  | none => (none, s)
  | some data => (some result, { s with data })

/-- The function after the wait. `CF20_SIGNATURE` is 0x848A. -/
def receive (s : Identifying β) (card : CardBytes) (sectorSz : ℕ) : Option Bool × Identifying β :=
  let s := s.pull card sectorSz
  let signature := s.word 0
  let s := s.log (.load 0)
  if signature ≠ 0x848A then s.freeBuf false else s.parse.freeBuf true

end Identifying

/-- `cf20_identify`, with at most `turns` turns of its wait: the result, if it returns, and the state it gets to. -/
def cf20Identify (turns : ℕ) (sbrk : Sbrk β) (card : CardBytes) (sectorSz : Word) (data : Data β)
    (id : Cf20Identity) : Option Bool × Identifying β :=
  -- sizeof(*buf) is 2
  match malloc sbrk data (sectorSz / 2) with
  | none => (none, ⟨data, 0, id, []⟩)
  | some (data, buf) =>
    let s : Identifying β := ⟨data, buf, id, []⟩
    if buf = 0 then (some false, s)
    else
      let s := s.outb .cardHead 0xA0
      let s := s.outb .cmd 0xEC
      match Loop.within (busyTurn card) turns 0 with
      | none => (none, s)
      | some () => s.receive card sectorSz.toNat

/-! ## What it should keep to -/

namespace Identifying

variable (s : Identifying β)

/-- The bytes that were stored and those of the words that were read are inside of a buffer of `size` bytes. -/
def BufferInside (size : ℕ) : Prop :=
  (∀ i, .store i ∈ s.accesses → i < size) ∧ ∀ k, .load k ∈ s.accesses → 2 * k + 1 < size

/-- A string that was accessed, was accessed inside of its array, and is terminated. -/
def CharsInside : Prop := ∀ f i, .char f i ∈ s.accesses → i < f.size ∧ s.Terminated f

end Identifying

section Inside

variable (sbrk : Sbrk β) (card : CardBytes) (sectorSz : Word) (data : Data β) (id : Cf20Identity)

/-- Every access of the function is inside of the bytes that it allocated, or of a string that it leaves terminated,
however long it waits. -/
def StaysInside : Prop :=
  ∀ turns, (cf20Identify turns sbrk card sectorSz data id).2.BufferInside (sectorSz / 2).toNat ∧
    (cf20Identify turns sbrk card sectorSz data id).2.CharsInside

end Inside

/-! ## The sector -/

namespace Identifying

variable {s : Identifying β}

/-- Nothing but the command was sent. -/
def Quiet (s : Identifying β) : Prop := ∀ a ∈ s.accesses, ∃ reg byte, a = .outb reg byte

theorem Quiet.bufferInside (h : s.Quiet) (size : ℕ) : s.BufferInside size := by
  constructor
  · intro i hmem
    obtain ⟨reg, byte, heq⟩ := h _ hmem
    cases heq
  · intro k hmem
    obtain ⟨reg, byte, heq⟩ := h _ hmem
    cases heq

theorem Quiet.not_char (h : s.Quiet) (f : CharField) (i : ℕ) : .char f i ∉ s.accesses := by
  intro hmem
  obtain ⟨reg, byte, heq⟩ := h _ hmem
  cases heq

theorem pull_succ (s : Identifying β) (card : CardBytes) (n : ℕ) :
    s.pull card (n + 1) = (s.pull card n).storeByte n (card.data n) := by
  rw [pull, List.range_succ, List.foldl_append]
  rfl

/-- The sector is stored, and nothing else. -/
theorem extends_pull {card : CardBytes} {n : ℕ} :
    Extends accesses (fun a => ∃ i < n, a = .store i) s (s.pull card n) :=
  Extends.foldl fun i hi _ => .of_snoc rfl ⟨i, List.mem_range.mp hi, rfl⟩

/-- **Every byte of the sector is stored.** -/
theorem store_mem_pull (card : CardBytes) {n i : ℕ} (hi : i < n) : .store i ∈ (s.pull card n).accesses := by
  induction n with
  | zero => exact absurd hi (Nat.not_lt_zero i)
  | succ n ih =>
    rw [pull_succ]
    rcases Nat.lt_succ_iff_lt_or_eq.mp hi with hi | rfl
    · exact List.mem_append_left _ (ih hi)
    · exact List.mem_append_right _ List.mem_cons_self

theorem buf_pull (card : CardBytes) (n : ℕ) : (s.pull card n).buf = s.buf := by
  induction n with
  | zero => rfl
  | succ n ih =>
    rw [pull_succ]
    exact ih

/-- One more byte that is stored. -/
theorem stored_succ (c : ℕ → BitVec 8) (old : BitVec 8) (m n : ℕ) :
    (if m = n then c n else if m < n then c m else old) = if m < n + 1 then c m else old := by
  rcases lt_trichotomy m n with hlt | rfl | hgt
  · rw [if_neg hlt.ne, if_pos hlt, if_pos (by omega)]
  · rw [if_pos rfl, if_pos (Nat.lt_succ_self m)]
  · rw [if_neg hgt.ne', if_neg (by omega), if_neg (by omega)]

/-- The memory after the sector was stored: words have their bytes at their address and at the next one. -/
theorem mem_pull (card : CardBytes) {n : ℕ} (hn : n ≤ 2 ^ 16) (a : Word) :
    (s.pull card n).data.mem a =
      (if (a + 1 - s.buf).toNat < n then card.data (a + 1 - s.buf).toNat else (s.data.mem a).extractLsb' 8 8) ++
        (if (a - s.buf).toNat < n then card.data (a - s.buf).toNat else (s.data.mem a).extractLsb' 0 8) := by
  induction n with
  | zero =>
    have hwhole : (s.data.mem a).extractLsb' 8 8 ++ (s.data.mem a).extractLsb' 0 8 = s.data.mem a :=
      BitVec.extractLsb'_append_extractLsb' (w := 8)
    rw [if_neg (Nat.not_lt_zero _), if_neg (Nat.not_lt_zero _), hwhole]
    rfl
  | succ n ih =>
    -- the byte that is stored last
    have hlast : ∀ b : Word, b - (s.buf + BitVec.ofNat 16 n) < 1 ↔ (b - s.buf).toNat = n := fun b => by bv_omega
    have hstored := ih (Nat.le_of_succ_le hn)
    rw [pull_succ, storeByte, log, Data.memset]
    simp only [buf_pull card n, hlast, hstored, BitVec.extractLsb'_append_eq_left,
      BitVec.extractLsb'_append_eq_right, stored_succ]

/-- The words of the sector. -/
theorem word_pull (card : CardBytes) {n k : ℕ} (hn : n ≤ 2 ^ 16) (hk : 2 * k + 1 < n) :
    (s.pull card n).word k = card.data (2 * k + 1) ++ card.data (2 * k) := by
  have hlow : s.buf + BitVec.ofNat 16 (2 * k) - s.buf = BitVec.ofNat 16 (2 * k) := by bv_omega
  have hhigh : s.buf + BitVec.ofNat 16 (2 * k) + 1 - s.buf = BitVec.ofNat 16 (2 * k + 1) := by bv_omega
  have hmod : 2 * k % 2 ^ 16 = 2 * k := Nat.mod_eq_of_lt (by omega)
  have hmod' : (2 * k + 1) % 2 ^ 16 = 2 * k + 1 := Nat.mod_eq_of_lt (by omega)
  rw [word, buf_pull card n, mem_pull card hn, hlow, hhigh, BitVec.toNat_ofNat, BitVec.toNat_ofNat, hmod, hmod',
    if_pos hk, if_pos (by omega)]

/-! ## The end of the function -/

theorem freeBuf_snd (s : Identifying β) (result : Bool) :
    (s.freeBuf result).2.accesses = s.accesses ∧ (s.freeBuf result).2.id = s.id := by
  rw [freeBuf]
  split
  · exact ⟨rfl, rfl⟩
  · exact ⟨rfl, rfl⟩

/-- Where the function is when it frees the buffer: the signature is wrong, or the words were parsed. -/
theorem receive_cases (s : Identifying β) (card : CardBytes) (n : ℕ) :
    (s.receive card n).2.accesses = ((s.pull card n).log (.load 0)).accesses ∨
      (s.receive card n).2.accesses = ((s.pull card n).log (.load 0)).parse.accesses ∧
        (s.receive card n).2.id = ((s.pull card n).log (.load 0)).parse.id := by
  rw [receive]
  split_ifs
  · exact .inl (freeBuf_snd _ _).1
  · exact .inr (freeBuf_snd _ _)

/-- After the sector was stored, the accesses are those of the parser. -/
theorem extends_receive (s : Identifying β) (card : CardBytes) (n : ℕ) :
    Extends accesses ParserAccess (s.pull card n) (s.receive card n).2 := by
  have hload : Extends accesses ParserAccess (s.pull card n) ((s.pull card n).log (.load 0)) :=
    extends_log (Nat.zero_le 162)
  rcases s.receive_cases card n with hacc | ⟨hacc, -⟩
  · rw [Extends, hacc]
    exact hload
  · rw [Extends, hacc]
    exact hload.trans extends_parse

/-- **The sector has bytes for all words** that are read. -/
theorem bufferInside_receive (card : CardBytes) {n : ℕ} (hn : 326 ≤ n) (h : s.Quiet) :
    (s.receive card n).2.BufferInside n := by
  have hcases : ∀ a ∈ (s.receive card n).2.accesses,
      ParserAccess a ∨ (∃ i < n, a = .store i) ∨ ∃ reg byte, a = .outb reg byte := by
    intro a ha
    rcases (s.extends_receive card n).mem_or ha with hpull | hparser
    · exact .inr ((extends_pull.mem_or hpull).symm.imp_right (h a))
    · exact .inl hparser
  constructor
  · intro i hmem
    rcases hcases _ hmem with hparser | ⟨j, hj, heq⟩ | ⟨reg, byte, heq⟩
    · exact hparser.elim
    · cases heq
      exact hj
    · cases heq
  · intro k hmem
    rcases hcases _ hmem with hparser | ⟨j, -, heq⟩ | ⟨reg, byte, heq⟩
    · have hk : k ≤ 162 := hparser
      omega
    · cases heq
    · cases heq

/-- **The strings** are accessed inside of their arrays, and terminated. -/
theorem charsInside_receive (card : CardBytes) (n : ℕ) (h : s.Quiet) :
    (s.receive card n).2.CharsInside := by
  have hsector : ∀ f i, .char f i ∉ ((s.pull card n).log (.load 0)).accesses := by
    intro f i hmem
    rcases List.mem_append.mp hmem with hmem | hmem
    · rcases extends_pull.mem_or hmem with hold | ⟨j, hj⟩
      · exact h.not_char f i hold
      · cases hj.2
    · simp at hmem
  intro f i hmem
  rcases s.receive_cases card n with hacc | ⟨hacc, hid⟩
  · rw [hacc] at hmem
    exact absurd hmem (hsector f i)
  · rw [hacc] at hmem
    refine ⟨(extends_parse.mem_or hmem).resolve_left (hsector f i), ?_⟩
    rw [Terminated, hid]
    exact terminated_parse _ f

end Identifying

/-! ## The function -/

/-- The wait ends in the turn that finds the card not busy. -/
theorem within_busyTurn_iff {card : CardBytes} {turns m : ℕ} :
    Loop.within (busyTurn card) turns m = some () ↔ ∃ k < turns, ¬ Busy (card.status (m + k)) := by
  induction turns generalizing m with
  | zero => simp [Loop.within]
  | succ turns ih =>
    rw [Loop.within, busyTurn]
    split_ifs with hbusy
    · -- the first turn is not the one
      rw [ih]
      constructor
      · rintro ⟨k, hk, hready⟩
        exact ⟨k + 1, Nat.succ_lt_succ hk, by rwa [Nat.add_comm k, ← Nat.add_assoc]⟩
      · rintro ⟨k, hk, hready⟩
        cases k with
        | zero => exact absurd hbusy hready
        | succ k => exact ⟨k, Nat.lt_of_succ_lt_succ hk, by rwa [Nat.add_assoc, Nat.add_comm 1]⟩
    · exact iff_of_true rfl ⟨0, Nat.succ_pos turns, hbusy⟩

section Identify

variable {turns : ℕ} {sbrk : Sbrk β} {card : CardBytes} {sectorSz : Word} {data : Data β} {id : Cf20Identity}

/-- **What the function does**: it sends the command at most, or it has a buffer, the card is not busy, and it goes
on to the sector. -/
theorem cf20Identify_cases (turns : ℕ) (sbrk : Sbrk β) (card : CardBytes) (sectorSz : Word) (data : Data β)
    (id : Cf20Identity) :
    (cf20Identify turns sbrk card sectorSz data id).1 ≠ some true ∧
        (cf20Identify turns sbrk card sectorSz data id).2.Quiet ∨
      Obtains sbrk data (sectorSz / 2) ∧ (∃ n, ¬ Busy (card.status n)) ∧
        ∃ s : Identifying β, s.Quiet ∧
          cf20Identify turns sbrk card sectorSz data id = s.receive card sectorSz.toNat := by
  have hquiet : ∀ data' buf, Identifying.Quiet
      (((⟨data', buf, id, []⟩ : Identifying β).outb .cardHead 0xA0).outb .cmd 0xEC) := by
    simp [Identifying.Quiet, Identifying.outb, Identifying.log]
  rw [cf20Identify]
  cases hcall : malloc sbrk data (sectorSz / 2) with
  | none => exact .inl ⟨by simp, by simp [Identifying.Quiet]⟩
  | some result =>
    obtain ⟨data', buf⟩ := result
    dsimp only
    split_ifs with hbuf
    · exact .inl ⟨by simp, by simp [Identifying.Quiet]⟩
    · cases hwait : Loop.within (busyTurn card) turns 0 with
      | none => exact .inl ⟨by simp, hquiet data' buf⟩
      | some ready =>
        obtain ⟨hobtains, -⟩ := obtains_of_malloc hcall hbuf
        obtain ⟨k, -, hready⟩ := within_busyTurn_iff.mp hwait
        exact .inr ⟨hobtains, ⟨0 + k, hready⟩, _, hquiet data' buf, rfl⟩

/-- With memory for the buffer, and enough turns, it goes on to the sector. -/
theorem cf20Identify_of_obtains (h : Obtains sbrk data (sectorSz / 2)) {n : ℕ} (hready : ¬ Busy (card.status n))
    (id : Cf20Identity) :
    ∃ s : Identifying β, cf20Identify (n + 1) sbrk card sectorSz data id = s.receive card sectorSz.toNat := by
  obtain ⟨data', buf, hcall, hbuf, -⟩ := malloc_of_obtains h
  have hwait : Loop.within (busyTurn card) (n + 1) 0 = some () :=
    within_busyTurn_iff.mpr ⟨n, Nat.lt_succ_self n, by rwa [Nat.zero_add]⟩
  rw [cf20Identify, hcall]
  dsimp only
  rw [if_neg hbuf, hwait]
  exact ⟨_, rfl⟩

/-- The byte in the middle of the sector is the first one behind the buffer. -/
theorem not_staysInside (h : Obtains sbrk data (sectorSz / 2)) {n : ℕ} (hready : ¬ Busy (card.status n))
    (id : Cf20Identity) : ¬ StaysInside sbrk card sectorSz data id := by
  intro hinside
  obtain ⟨s, hrun⟩ := cf20Identify_of_obtains h hready id
  have hhalf : (sectorSz / 2).toNat < sectorSz.toNat := by
    have hnat : (sectorSz / 2).toNat = sectorSz.toNat / 2 := BitVec.toNat_udiv
    have hne : (sectorSz / 2).toNat ≠ 0 := fun hzero => h.1 (BitVec.eq_of_toNat_eq hzero)
    omega
  have hmem : .store (sectorSz / 2).toNat ∈ (s.receive card sectorSz.toNat).2.accesses :=
    (s.extends_receive card sectorSz.toNat).mem (Identifying.store_mem_pull card hhalf)
  rw [← hrun] at hmem
  exact absurd ((hinside (n + 1)).1.1 _ hmem) (lt_irrefl _)

end Identify

/-- **The accesses of `cf20_identify`, exactly.** For every size of a sector, every answer of the card, every state of
the allocator and whatever `sbrk` does: the strings are accessed inside of their arrays and left terminated; and the
accesses to the buffer are inside of the bytes that were allocated too, if and only if there is no memory for
the buffer, or the card stays busy. -/
theorem cf20_identify_inside_iff (sbrk : Sbrk β) (card : CardBytes) (sectorSz : Word) (data : Data β)
    (id : Cf20Identity) :
    (∀ turns, (cf20Identify turns sbrk card sectorSz data id).2.CharsInside) ∧
      (StaysInside sbrk card sectorSz data id ↔
        ¬ Obtains sbrk data (sectorSz / 2) ∨ ∀ n, Busy (card.status n)) := by
  have hchars : ∀ turns, (cf20Identify turns sbrk card sectorSz data id).2.CharsInside := by
    intro turns
    rcases cf20Identify_cases turns sbrk card sectorSz data id with ⟨-, hquiet⟩ | ⟨-, -, s, hquiet, hrun⟩
    · exact fun f i hmem => absurd hmem (hquiet.not_char f i)
    · rw [hrun]
      exact Identifying.charsInside_receive card sectorSz.toNat hquiet
  refine ⟨hchars, ?_, ?_⟩
  · intro h
    by_contra hcond
    obtain ⟨hobtains, hready⟩ := not_or.mp hcond
    obtain ⟨n, hn⟩ := not_forall.mp hready
    exact not_staysInside (not_not.mp hobtains) hn id h
  · intro hcond turns
    refine ⟨?_, hchars turns⟩
    rcases cf20Identify_cases turns sbrk card sectorSz data id with ⟨-, hquiet⟩ | ⟨hobtains, ⟨n, hn⟩, -⟩
    · exact hquiet.bufferInside _
    · rcases hcond with hnot | hbusy
      · exact absurd hobtains hnot
      · exact absurd (hbusy n) hn

/-- A sector of 512 bytes, in the image of the kernel after `heap_initialize`, from a card that is not busy. -/
theorem not_staysInside_sector : ¬ StaysInside sbrk ⟨fun _ => 0x50, fun _ => 0⟩ 512
    (KernelClient.boot 0x5000 0xF000 fun _ => 0).toData default := by
  have hobtains : Obtains sbrk (KernelClient.boot 0x5000 0xF000 fun _ => 0).toData (512 / 2) :=
    ⟨by decide, 9, by decide, by decide, .inr ⟨fun _ _ _ => rfl, by decide, by decide⟩⟩
  exact not_staysInside (n := 0) hobtains (by decide) default

/-- **In a buffer of the size of a sector** all the accesses would be inside, from 326 bytes on. -/
theorem cf20_identify_inside_sector {sectorSz : Word} (h : 326 ≤ sectorSz.toNat) (turns : ℕ) (sbrk : Sbrk β)
    (card : CardBytes) (data : Data β) (id : Cf20Identity) :
    (cf20Identify turns sbrk card sectorSz data id).2.BufferInside sectorSz.toNat := by
  rcases cf20Identify_cases turns sbrk card sectorSz data id with ⟨-, hquiet⟩ | ⟨-, -, s, hquiet, hrun⟩
  · exact hquiet.bufferInside _
  · rw [hrun]
    exact Identifying.bufferInside_receive card h hquiet

/-! ## The block of the buffer -/

/-- The least power of two for one half with a header holds the other half too only without a rest. -/
theorem add_two_le_two_pow_iff {n i : ℕ} (h : 326 ≤ n) (hle : n / 2 + 2 ≤ 2 ^ i)
    (hmin : i = 3 ∨ 2 ^ (i - 1) < n / 2 + 2) :
    n + 2 ≤ 2 ^ i ↔ ∃ m, n + 2 = 2 ^ m := by
  constructor
  · intro hlei
    rcases hmin with rfl | hmin
    · omega
    · have hpos : 0 < i := by
        by_contra hzero
        rw [show i = 0 by omega] at hle
        omega
      have hpow : 2 ^ i = 2 * 2 ^ (i - 1) := by
        rw [← pow_succ', Nat.sub_add_cancel hpos]
      exact ⟨i, by omega⟩
  · rintro ⟨m, hm⟩
    rw [hm]
    by_contra hlarge
    have hlt : i < m := (Nat.pow_lt_pow_iff_right (by norm_num)).mp (not_le.mp hlarge)
    have hhalf : 2 ^ i ≤ 2 ^ (m - 1) := Nat.pow_le_pow_right (by norm_num) (by omega)
    have hpow : 2 ^ m = 2 * 2 ^ (m - 1) := by
      rw [← pow_succ', Nat.sub_add_cancel (by omega)]
    omega

/-- **The block that is handed out** has bytes for the whole sector exactly if the size of the sector and the header
are a power of two together. -/
theorem provides_sector_iff {sbrk : Sbrk β} {data data' : Data β} {sectorSz buf : Word} (h : 326 ≤ sectorSz.toNat)
    (hcall : malloc sbrk data (sectorSz / 2) = some (data', buf)) (hbuf : buf ≠ 0) :
    data'.Provides buf sectorSz.toNat ↔ ∃ m, sectorSz.toNat + 2 = 2 ^ m := by
  obtain ⟨⟨-, index, -, hindex, -⟩, hheader⟩ := obtains_of_malloc hcall hbuf
  have hfull : (sectorSz / 2 + headerSize).toNat = sectorSz.toNat / 2 + 2 := by
    have hnat : (sectorSz / 2).toNat = sectorSz.toNat / 2 := BitVec.toNat_udiv
    have hlt := sectorSz.isLt
    rw [BitVec.toNat_add, hnat, show headerSize.toNat = 2 from rfl, Nat.mod_eq_of_lt (by omega)]
  have hsmall : (sectorSz / 2 + headerSize).toNat ≤ 2 ^ 15 := by
    by_contra hlarge
    rw [getindex_eq_none (not_le.mp hlarge)] at hindex
    cases hindex
  obtain ⟨i, hi, -, hle, hmin⟩ := getindex_spec hsmall
  rw [hfull] at hle hmin
  rw [← add_two_le_two_pow_iff h hle hmin]
  constructor
  · rintro ⟨j, hj, hlej⟩
    rw [hheader, hi] at hj
    exact Option.some.inj hj ▸ hlej
  · exact fun hlei => ⟨i, by rw [hheader, hi], hlei⟩

/-! ## What the strings are made of -/

/-- The other byte of its word. -/
def otherByte (i : ℕ) : ℕ := if i % 2 = 0 then i + 1 else i - 1

namespace Identifying

section Bytes

variable {word : ℕ → Word} {c : ℕ → BitVec 8}

theorem lowByte (a b : BitVec 8) : ((a ++ b : Word)).setWidth 8 = b := BitVec.setWidth_append_eq_right

theorem highByte (a b : BitVec 8) : ((a ++ b : Word) >>> 8).setWidth 8 = a := by
  rw [BitVec.setWidth_ushiftRight_eq_extractLsb]
  exact BitVec.extractLsb'_append_eq_left

/-- The serial number has the bytes in their order. -/
theorem serialChar_eq {j : ℕ} (h : word (10 + j / 2) = c (2 * (10 + j / 2) + 1) ++ c (2 * (10 + j / 2))) :
    serialChar word j = c (20 + j) := by
  rw [serialChar, h]
  split_ifs with heven
  · rw [lowByte, show 2 * (10 + j / 2) = 20 + j by omega]
  · rw [highByte, show 2 * (10 + j / 2) + 1 = 20 + j by omega]

/-- The firmware and the model have the bytes of each word the other way round. -/
theorem swappedChar_eq {first j : ℕ}
    (h : word (first + j / 2) = c (2 * (first + j / 2) + 1) ++ c (2 * (first + j / 2))) :
    swappedChar first word j = c (2 * first + otherByte j) := by
  rw [swappedChar, h, otherByte]
  split_ifs with heven
  · rw [highByte, show 2 * (first + j / 2) + 1 = 2 * first + (j + 1) by omega]
  · rw [lowByte, show 2 * (first + j / 2) = 2 * first + (j - 1) by omega]

end Bytes

variable {s : Identifying β} {card : CardBytes} {n : ℕ}

theorem freeBuf_fst {result r : Bool} (h : (s.freeBuf result).1 = some r) : r = result := by
  rw [freeBuf] at h
  split at h
  · cases h
  · exact (Option.some.inj h).symm

/-- The function returns true after the words were parsed. -/
theorem receive_id (h : (s.receive card n).1 = some true) :
    (s.receive card n).2.id = ((s.pull card n).log (.load 0)).parse.id := by
  rw [receive] at h ⊢
  split_ifs at h ⊢ with hsignature
  · exact absurd (freeBuf_fst h) (by decide)
  · exact (freeBuf_snd _ _).2

end Identifying

/-- **What the strings are made of.** If `cf20_identify` returns true, the strings are bytes that the card sent, up to
trailing spaces: those of the serial number in their order, and those of the firmware and of the model with the bytes
of each word exchanged. -/
theorem cf20_identify_strings {turns : ℕ} {sbrk : Sbrk β} {card : CardBytes} {sectorSz : Word} {data : Data β}
    {id : Cf20Identity} (h : 94 ≤ sectorSz.toNat)
    (htrue : (cf20Identify turns sbrk card sectorSz data id).1 = some true) :
    (∀ j < 20, (cf20Identify turns sbrk card sectorSz data id).2.id.chars .serial j =
        Identifying.trimmed 20 (fun i => card.data (20 + i)) j) ∧
      (∀ j < 8, (cf20Identify turns sbrk card sectorSz data id).2.id.chars .firmware j =
        Identifying.trimmed 8 (fun i => card.data (46 + otherByte i)) j) ∧
      ∀ j < 40, (cf20Identify turns sbrk card sectorSz data id).2.id.chars .model j =
        Identifying.trimmed 40 (fun i => card.data (54 + otherByte i)) j := by
  obtain ⟨s, hrun⟩ : ∃ s : Identifying β,
      cf20Identify turns sbrk card sectorSz data id = s.receive card sectorSz.toNat := by
    rcases cf20Identify_cases turns sbrk card sectorSz data id with ⟨hnot, -⟩ | ⟨-, -, s, -, hrun⟩
    · exact absurd htrue hnot
    · exact ⟨s, hrun⟩
  rw [hrun] at htrue ⊢
  have hword : ∀ k ≤ 46, ((s.pull card sectorSz.toNat).log (.load 0)).word k =
      card.data (2 * k + 1) ++ card.data (2 * k) := fun k hk =>
    Identifying.word_pull card sectorSz.isLt.le (by omega)
  obtain ⟨hserial, hfirmware, hmodel⟩ := ((s.pull card sectorSz.toNat).log (.load 0)).parse_chars
  rw [Identifying.receive_id htrue, hserial, hfirmware, hmodel]
  refine ⟨fun j hj => ?_, fun j hj => ?_, fun j hj => ?_⟩
  · rw [Identifying.textOf_of_lt _ _ hj]
    exact Identifying.trimmed_congr (fun i hi => Identifying.serialChar_eq (hword _ (by omega))) hj
  · rw [Identifying.textOf_of_lt _ _ hj]
    exact Identifying.trimmed_congr (fun i hi => Identifying.swappedChar_eq (hword _ (by omega))) hj
  · rw [Identifying.textOf_of_lt _ _ hj]
    exact Identifying.trimmed_congr (fun i hi => Identifying.swappedChar_eq (hword _ (by omega))) hj

end I80k.Kernel

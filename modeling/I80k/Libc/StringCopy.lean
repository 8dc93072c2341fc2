import I80k.Kernel.Fs.Path
import I80k.Lib.StringMove
import I80k.Libc.Malloc
import I80k.Libc.Strings

/-!
# Strings

The other functions of `libc/string`. Those of `string.S` and `strchr.S` are sequences of instructions, as `memcmp` and
`strnlen` are; the registers that a function saves and its frame on the stack are left out. `strlcpy` is written in C. A
string is at a pointer if its characters are, none of which is zero, and a zero byte is behind them.

`memcpy` does not load its result: it returns what was in `ax` when it was called.

## Main definitions

* `memset`, `memcpy`, `strlen`, `strcmp`, `strchr`, `strlcpy`: the functions
* `IsString`: a string at a pointer

## Main results

* `memset_overlays`, `memcpy_copies_iff`: what `memset` and `memcpy` leave in memory
* `strlen_of_string`, `strchr_of_string`: the length of a string, and a character in it
* `strcmp_compares`: strings are compared as lists of their characters
* `strlcpy_copies`: as much of a string as there is room for
-/

namespace I80k.Libc

open StringInstr

/-! ## The functions -/

/-- `memset(dst, value, count)`: its result, and the memory. -/
def memset (m : Machine) (dst value count : Word) : Word × (Word → Byte) :=
  let m := { m with regs := { m.regs with di := dst } } -- mov 4(%bp), %di
  let m := { m with regs := { m.regs with ax := value } } -- mov 6(%bp), %ax
  let m := { m with regs := { m.regs with cx := count } } -- mov 8(%bp), %cx
  let m := repeated stosb m -- rep stosb
  (dst, m.mem) -- mov 4(%bp), %ax

/-- `memcpy(dst, src, n)`: its result, and the memory. -/
def memcpy (m : Machine) (dst src n : Word) : Word × (Word → Byte) :=
  let m := { m with regs := { m.regs with di := dst } } -- mov 4(%bp), %di
  let m := { m with regs := { m.regs with si := src } } -- mov 6(%bp), %si
  let m := { m with regs := { m.regs with cx := n } } -- mov 8(%bp), %cx
  let m := repeated movsb m -- rep movsb
  (m.regs.ax, m.mem)

section Functions

variable (mem : Word → Byte)

/-- `strlen(s)`. -/
def strlen (r : Regs) (s : Word) : Word :=
  let r := { r with bx := s } -- mov 4(%bp), %bx
  let r := { r with di := r.bx } -- mov %bx, %di
  let r := { r with bx := r.di } -- mov %di, %bx
  let r := { r.setAl 0 with zf := true } -- xorb %al, %al
  let r := { r with cx := -1 } -- mov $-1, %cx
  let r := repne (scasb mem) r -- repne scasb
  let r := { r with ax := r.di } -- mov %di, %ax
  let r := { r with ax := r.ax - r.bx } -- sub %bx, %ax
  r.ax - 1 -- dec %ax

/-- `.loop` of `strcmp`, for a number of turns: the registers at `.quit`. -/
def strcmpLoop : ℕ → Regs → Option Regs
  | 0, _ => none
  | turns + 1, r =>
    let r := lodsb mem r -- lodsb
    let r := { r with bx := r.bx + 1 } -- inc %bx
    if r.al = 0 then some r -- testb %al, %al; jz .quit
    else if r.al = mem r.bx then strcmpLoop turns r -- cmpb (%bx), %al; je .loop
    else some r

/-- `strcmp(s1, s2)`, if its loop ends within a number of turns. -/
def strcmp (turns : ℕ) (r : Regs) (s1 s2 : Word) : Option Word :=
  let r := { r with bx := s1 } -- mov 4(%bp), %bx
  let r := { r with si := r.bx } -- mov %bx, %si
  let r := { r with bx := s2 } -- mov 6(%bp), %bx
  let r := { r with bx := r.bx - 1 } -- dec %bx
  (strcmpLoop mem turns r).map fun r =>
    let r := r.setDl (mem r.bx) -- mov (%bx), %dl
    let r := r.setDh 0 -- xorb %dh, %dh
    let r := r.setAh 0 -- xorb %ah, %ah
    r.ax - r.dx -- sub %dx, %ax

/-- `.strchr.loop`, for a number of turns: the result. -/
def strchrLoop : ℕ → Regs → Option Word
  | 0, _ => none
  | turns + 1, r =>
    let r := lodsb mem r -- lodsb
    if r.al = r.ah then some (r.si - 1) -- cmp %al, %ah; jz .strchr.quit; movw %si, %ax; decw %ax
    else if r.al ≠ 0 then strchrLoop turns r -- testb %al, %al; jnz .strchr.loop
    else some 0 -- xorw %ax, %ax

/-- `strchr(s, c)`, if its loop ends within a number of turns. -/
def strchr (turns : ℕ) (r : Regs) (s c : Word) : Option Word :=
  let r := { r with si := s } -- mov 4(%bp), %si
  let r := r.setAh (c.extractLsb' 0 8) -- movb 6(%bp), %ah
  strchrLoop mem turns r

end Functions

/-- The variables of `strlcpy`, and the memory. -/
structure Strlcpy where
  mem : Word → Byte
  d : Word
  s : Word
  n : Word

/-- The loop of `strlcpy` that copies. It ends when `n` is zero. -/
def strlcpyLoop : ℕ → Strlcpy → Strlcpy
  | 0, c => c
  | turns + 1, c =>
    if c.n - 1 = 0 then { c with n := c.n - 1 }
    else
      let b := c.mem c.s
      let c := { mem := Function.update c.mem c.d b, d := c.d + 1, s := c.s + 1, n := c.n - 1 }
      if b = 0 then c else strlcpyLoop turns c

/-- `while (*s++)`, for a number of turns. -/
def skipString (mem : Word → Byte) : ℕ → Word → Option Word
  | 0, _ => none
  | turns + 1, s => if mem s = 0 then some (s + 1) else skipString mem turns (s + 1)

/-- `strlcpy(dst, src, sz)`: its result and the memory, if it comes to the end of `src` within a number of turns. -/
def strlcpy (turns : ℕ) (mem : Word → Byte) (dst src sz : Word) : Option (Word × (Word → Byte)) := do
  let c : Strlcpy := ⟨mem, dst, src, sz⟩
  let c := if c.n ≠ 0 then strlcpyLoop c.n.toNat c else c
  if c.n = 0 then
    let c := if sz ≠ 0 then { c with mem := Function.update c.mem c.d 0 } else c
    let s ← skipString c.mem turns c.s
    return (s - src - 1, c.mem)
  else return (c.s - src - 1, c.mem)

/-! ## Filling and copying -/

/-- **`memset`** fills its destination with the low byte of the value, and nothing else. -/
theorem memset_overlays (m : Machine) (dst value count : Word) :
    (memset m dst value count).1 = dst ∧
      Overlays m.mem (memset m dst value count).2 dst count.toNat fun _ => value.extractLsb' 0 8 :=
  ⟨rfl, repeated_stosb { m with regs := { m.regs with di := dst, ax := value, cx := count } }⟩

/-- What `memcpy` leaves in memory, and what it returns. -/
theorem memcpy_overlays (m : Machine) (dst src n : Word) :
    (memcpy m dst src n).1 = m.regs.ax ∧
      Overlays m.mem (memcpy m dst src n).2 dst n.toNat
        fun i => m.mem (src + BitVec.ofNat 16 (i % (dst - src).toNat)) :=
  repeated_movsb { m with regs := { m.regs with di := dst, si := src, cx := n } }

/-- **`memcpy`** changes no byte but those of its destination, where it leaves the bytes of its source if, and only if,
those repeat themselves behind the distance of both: so if the destination does not begin within the source. Its result
is what was in `ax`. -/
theorem memcpy_copies_iff (m : Machine) (dst src n : Word) :
    (∀ a, n.toNat ≤ (a - dst).toNat → (memcpy m dst src n).2 a = m.mem a) ∧
      ((∀ i < n.toNat, (memcpy m dst src n).2 (dst + BitVec.ofNat 16 i) = m.mem (src + BitVec.ofNat 16 i)) ↔
        ∀ i, (dst - src).toNat + i < n.toNat →
          m.mem (src + BitVec.ofNat 16 ((dst - src).toNat + i)) = m.mem (src + BitVec.ofNat 16 i)) ∧
      (memcpy m dst src n).1 = m.regs.ax := by
  obtain ⟨hax, hmem⟩ := memcpy_overlays m dst src n
  refine ⟨fun a ha => hmem.outside ha, ?_, hax⟩
  have hcopy : ∀ i < n.toNat, (memcpy m dst src n).2 (dst + BitVec.ofNat 16 i) =
      m.mem (src + BitVec.ofNat 16 (i % (dst - src).toNat)) :=
    fun i hi => hmem.inside hi n.isLt.le
  generalize (dst - src).toNat = dist at hcopy ⊢
  constructor
  · intro h i hi
    have hnow := (hcopy _ hi).symm.trans (h _ hi)
    have hbefore := (hcopy i (by omega)).symm.trans (h i (by omega))
    rw [Nat.add_mod_left] at hnow
    exact hnow.symm.trans hbefore
  · intro h i hi
    rw [hcopy i hi]
    induction i using Nat.strong_induction_on with
    | _ i ih =>
      rcases Nat.eq_zero_or_pos dist with rfl | hpos
      · rw [Nat.mod_zero]
      by_cases hfirst : i < dist
      · rw [Nat.mod_eq_of_lt hfirst]
      · -- the byte is the one a distance before
        obtain ⟨j, rfl⟩ := Nat.exists_eq_add_of_le (not_lt.mp hfirst)
        rw [h j hi, Nat.add_mod_left]
        exact ih j (by omega) (by omega)

/-! ## Strings -/

/-- A string is at a pointer, with a zero byte behind it. -/
def IsString (mem : Word → Byte) : Word → List Byte → Prop
  | s, [] => mem s = 0
  | s, c :: text => mem s = c ∧ c ≠ 0 ∧ IsString mem (s + 1) text

instance decidableIsString (mem : Word → Byte) : ∀ s text, Decidable (IsString mem s text)
  | s, [] => inferInstanceAs (Decidable (mem s = 0))
  | s, c :: text =>
    have := decidableIsString mem (s + 1) text
    inferInstanceAs (Decidable (mem s = c ∧ c ≠ 0 ∧ IsString mem (s + 1) text))

section Strings

variable {mem mem' : Word → Byte} {s : Word} {text : List Byte}

theorem add_one (s : Word) (i : ℕ) : s + BitVec.ofNat 16 i + 1 = s + BitVec.ofNat 16 (i + 1) := by bv_omega

theorem add_succ (s : Word) (i : ℕ) : s + BitVec.ofNat 16 (i + 1) = s + 1 + BitVec.ofNat 16 i := by bv_omega

/-- The bytes of a string. -/
theorem isString_iff :
    IsString mem s text ↔ 0 ∉ text ∧ ∀ i ≤ text.length, mem (s + BitVec.ofNat 16 i) = text.getD i 0 := by
  induction text generalizing s with
  | nil => simp [IsString]
  | cons c text ih =>
    rw [IsString, ih, List.mem_cons, not_or]
    constructor
    · rintro ⟨hfirst, hc, hnul, hrest⟩
      refine ⟨⟨hc.symm, hnul⟩, fun i hi => ?_⟩
      cases i with
      | zero => simpa using hfirst
      | succ i =>
        rw [add_succ, List.getD_cons_succ]
        exact hrest i (Nat.le_of_succ_le_succ hi)
    · rintro ⟨⟨hc, hnul⟩, h⟩
      refine ⟨by simpa using h 0 (Nat.zero_le _), Ne.symm hc, hnul, fun i hi => ?_⟩
      rw [← add_succ, h (i + 1) (Nat.succ_le_succ hi), List.getD_cons_succ]

theorem IsString.nul (h : IsString mem s text) : mem (s + BitVec.ofNat 16 text.length) = 0 := by
  rw [(isString_iff.mp h).2 _ le_rfl, List.getD_eq_default _ _ le_rfl]

theorem IsString.ne_nul (h : IsString mem s text) {i : ℕ} (hi : i < text.length) :
    mem (s + BitVec.ofNat 16 i) ≠ 0 := by
  obtain ⟨hnul, hbytes⟩ := isString_iff.mp h
  rw [hbytes i hi.le, List.getD_eq_getElem _ _ hi]
  exact fun hzero => hnul (hzero ▸ List.getElem_mem hi)

/-- A string ends within its segment. -/
theorem IsString.length_lt (h : IsString mem s text) : text.length < 2 ^ 16 := by
  by_contra hlong
  have hwrap : BitVec.ofNat 16 (text.length % 2 ^ 16) = BitVec.ofNat 16 text.length := by
    apply BitVec.eq_of_toNat_eq
    simp
  have hmod : text.length % 2 ^ 16 < 2 ^ 16 := Nat.mod_lt _ (by norm_num)
  exact h.ne_nul (i := text.length % 2 ^ 16) (by omega) (hwrap ▸ h.nul)

/-- The registers before the scan of `strlen`. -/
def strlenRegs (r : Regs) (s : Word) : Regs := { (r.setAl 0) with bx := s, di := s, cx := -1, zf := true }

/-- **`strlen`** is the length of a string, but for that of the longest one. -/
theorem strlen_of_string (r : Regs) (h : IsString mem s text) :
    strlen mem r s = BitVec.ofNat 16 (min text.length 65534) := by
  have hal : (strlenRegs r s).al = 0 := Regs.al_setAl
  have hlt := h.length_lt
  have hresult : strlen mem r s =
      (repne (scasb mem) (strlenRegs r s)).di - (repne (scasb mem) (strlenRegs r s)).bx - 1 := rfl
  rw [hresult]
  by_cases hlong : text.length = 65535
  · -- the scan comes to the end of its count
    have hne : ∀ i < (strlenRegs r s).cx.toNat, (strlenRegs r s).al ≠ mem (s + BitVec.ofNat 16 i) :=
      fun i hi => hal.trans_ne (h.ne_nul (hlong ▸ hi)).symm
    obtain ⟨hdi, hbx, -⟩ := repne_scasb_ne hne
    rw [hdi, hbx, hlong]
    change s + -1 - s - 1 = _
    bv_omega
  · have hk : text.length < (strlenRegs r s).cx.toNat := by
      change text.length < 65535
      omega
    obtain ⟨hdi, hbx, -⟩ := repne_scasb_eq hk (fun i hi => hal.trans_ne (h.ne_nul hi).symm) (hal.trans h.nul.symm)
    rw [hdi, hbx, Nat.min_eq_left (by omega)]
    change s + BitVec.ofNat 16 (text.length + 1) - s - 1 = _
    bv_omega

theorem strchrLoop_of_string {r : Regs} {turns : ℕ} (h : IsString mem r.si text) (hturns : text.length < turns) :
    strchrLoop mem turns r =
      some (if r.ah ∈ text ++ [0] then r.si + BitVec.ofNat 16 ((text ++ [0]).idxOf r.ah) else 0) := by
  have hback : r.si + 1 - 1 = r.si := by bv_omega
  induction text generalizing r turns with
  | nil =>
    obtain ⟨turns, rfl⟩ := Nat.exists_eq_add_of_lt hturns
    rw [strchrLoop, al_lodsb, ah_lodsb, si_lodsb, hback, show mem r.si = 0 from h]
    by_cases hzero : r.ah = 0
    · simp [hzero]
    · rw [if_neg (Ne.symm hzero), if_neg (not_not.mpr rfl), if_neg (by simpa using hzero)]
  | cons c text ih =>
    obtain ⟨hfirst, hc, hrest⟩ := h
    cases turns with
    | zero => exact absurd hturns (Nat.not_lt_zero _)
    | succ turns =>
      rw [strchrLoop, al_lodsb, ah_lodsb, si_lodsb, hback, hfirst]
      by_cases hfound : c = r.ah
      · simp [hfound]
      · have hrest : IsString mem (lodsb mem r).si text := hrest
        have hnext := ih hrest (Nat.lt_of_succ_lt_succ hturns) (by rw [si_lodsb]; bv_omega)
        rw [ah_lodsb, si_lodsb] at hnext
        rw [if_neg hfound, if_pos hc, hnext, List.cons_append, List.idxOf_cons_ne _ hfound, ← add_succ]
        simp only [List.mem_cons, Ne.symm hfound, false_or]

/-- **`strchr`** is the first place of a character in a string, or in the zero byte behind it. -/
theorem strchr_of_string (r : Regs) (h : IsString mem s text) (c : Word) {turns : ℕ} (hturns : text.length < turns) :
    strchr mem turns r s c =
      some (if c.extractLsb' 0 8 ∈ text ++ [0] then
        s + BitVec.ofNat 16 ((text ++ [0]).idxOf (c.extractLsb' 0 8)) else 0) := by
  have hah : (({ r with si := s } : Regs).setAh (c.extractLsb' 0 8)).ah = c.extractLsb' 0 8 :=
    BitVec.extractLsb'_append_eq_left
  have hloop := strchrLoop_of_string (r := ({ r with si := s } : Regs).setAh (c.extractLsb' 0 8)) h hturns
  rw [hah] at hloop
  exact hloop

/-! ## Comparing strings -/

/-- The first characters of two strings that are not the same, with the zero byte that is behind them. -/
def firstOther : List Byte → List Byte → Byte × Byte
  | [], text' => (0, text'.headD 0)
  | c :: _, [] => (c, 0)
  | c :: text, c' :: text' => if c = c' then firstOther text text' else (c, c')

/-- One turn of the loop. -/
theorem strcmpLoop_succ (mem : Word → Byte) (turns : ℕ) (r : Regs) :
    ∃ r' : Regs, r'.al = mem r.si ∧ r'.si = r.si + 1 ∧ r'.bx = r.bx + 1 ∧
      strcmpLoop mem (turns + 1) r =
        if r'.al = 0 then some r' else if r'.al = mem r'.bx then strcmpLoop mem turns r' else some r' :=
  ⟨{ lodsb mem r with bx := r.bx + 1 }, al_lodsb mem r, rfl, rfl, rfl⟩

theorem strcmpLoop_of_string {text' : List Byte} {r : Regs} {turns : ℕ} (h : IsString mem r.si text)
    (h' : IsString mem (r.bx + 1) text') (hturns : text.length < turns) :
    ∃ r', strcmpLoop mem turns r = some r' ∧ r'.al = (firstOther text text').1 ∧
      mem r'.bx = (firstOther text text').2 := by
  induction text generalizing text' r turns with
  | nil =>
    obtain ⟨turns, rfl⟩ := Nat.exists_eq_add_of_lt hturns
    obtain ⟨r', hal, -, hbx, hturn⟩ := strcmpLoop_succ mem (0 + turns) r
    have hend : r'.al = 0 := hal.trans h
    rw [if_pos hend] at hturn
    refine ⟨r', hturn, hend, ?_⟩
    rw [hbx]
    cases text' with
    | nil => exact h'
    | cons c' text' => exact h'.1
  | cons c text ih =>
    obtain ⟨hfirst, hc, hrest⟩ := h
    cases turns with
    | zero => exact absurd hturns (Nat.not_lt_zero _)
    | succ turns =>
      obtain ⟨r', hal, hsi, hbx, hturn⟩ := strcmpLoop_succ mem turns r
      rw [hal, hfirst, if_neg hc] at hturn
      rw [hfirst] at hal
      rw [← hbx] at h'
      cases text' with
      | nil =>
        have hother : ¬ c = mem r'.bx := fun heq => hc (heq.trans h')
        rw [if_neg hother] at hturn
        exact ⟨r', hturn, hal, h'⟩
      | cons c' text' =>
        rw [h'.1] at hturn
        rw [firstOther]
        split_ifs at hturn ⊢ with heq
        · have hnext : IsString mem (r'.bx + 1) text' := h'.2.2
          rw [hturn]
          exact ih (hsi ▸ hrest) hnext (Nat.lt_of_succ_lt_succ hturns)
        · exact ⟨r', hturn, hal, h'.1⟩

/-- The strings are the same if the characters are, and else in the order of them. -/
theorem firstOther_order {text' : List Byte} (h : 0 ∉ text) (h' : 0 ∉ text') :
    ((firstOther text text').1 = (firstOther text text').2 ↔ text = text') ∧
      ((firstOther text text').1 < (firstOther text text').2 ↔ text < text') := by
  have hpos : ∀ {c : Byte}, c ≠ 0 → 0 < c := fun hc => by bv_omega
  have hmin : ∀ {c : Byte}, ¬ c < 0 := fun hlt => by bv_omega
  induction text generalizing text' with
  | nil =>
    cases text' with
    | nil => exact ⟨iff_of_true rfl rfl, iff_of_false hmin (List.not_lt_nil [])⟩
    | cons c' text' =>
      have hc' : c' ≠ 0 := fun hzero => h' (hzero ▸ List.mem_cons_self)
      exact ⟨iff_of_false (Ne.symm hc') (List.cons_ne_nil _ _).symm, iff_of_true (hpos hc') (List.nil_lt_cons _ _)⟩
  | cons c text ih =>
    have hc : c ≠ 0 := fun hzero => h (hzero ▸ List.mem_cons_self)
    cases text' with
    | nil => exact ⟨iff_of_false hc (List.cons_ne_nil _ _), iff_of_false hmin (List.not_lt_nil _)⟩
    | cons c' text' =>
      rw [firstOther, List.cons_lt_cons_iff, List.cons_eq_cons]
      split_ifs with heq
      · subst heq
        obtain ⟨hsame, hless⟩ := ih (fun hmem => h (List.mem_cons_of_mem _ hmem))
          (fun hmem => h' (List.mem_cons_of_mem _ hmem))
        rw [hsame, hless]
        simp
      · simp [heq]

/-- **`strcmp`** compares strings as lists of their characters. -/
theorem strcmp_compares (mem : Word → Byte) (r : Regs) {s1 s2 : Word} {text1 text2 : List Byte}
    (h1 : IsString mem s1 text1) (h2 : IsString mem s2 text2) {turns : ℕ} (hturns : text1.length < turns) :
    ∃ result, strcmp mem turns r s1 s2 = some result ∧ (result = 0 ↔ text1 = text2) ∧
      (result.toInt < 0 ↔ text1 < text2) := by
  have hback : s2 - 1 + 1 = s2 := by bv_omega
  obtain ⟨r', hloop, hal, hbx⟩ := strcmpLoop_of_string (r := { r with bx := s2 - 1, si := s1 }) h1
    (hback.symm ▸ h2) hturns
  obtain ⟨hsame, hless⟩ := firstOther_order (isString_iff.mp h1).1 (isString_iff.mp h2).1
  rw [← hal, ← hbx] at hsame hless
  have hresult : strcmp mem turns r s1 s2 = some (byteDiff r'.al (mem r'.bx)) := by
    have hdl : ((r'.setDl (mem r'.bx)).setDh 0).dx = 0#8 ++ mem r'.bx := by simp
    rw [strcmp, hloop, byteDiff, ← hdl]
    rfl
  have hint := toInt_byteDiff r'.al (mem r'.bx)
  refine ⟨_, hresult, ?_, ?_⟩
  · rw [← hsame, ← BitVec.toInt_inj, hint, ← BitVec.toNat_inj]
    change (_ = (0 : ℤ)) ↔ _
    omega
  · rw [← hless, hint, BitVec.lt_def]
    omega

/-- `a` is before `b`. -/
theorem strcmp_compares_letters :
    ∃ result, strcmp (fun a => if a = 0 then 97 else if a = 2 then 98 else 0) 2 ⟨0, 0, 0, 0, 0, 0, false, []⟩ 0 2 =
        some result ∧ (result = 0 ↔ ([97] : List Byte) = [98]) ∧ (result.toInt < 0 ↔ ([97] : List Byte) < [98]) :=
  strcmp_compares _ _ (by simp [IsString]) (by simp [IsString]) (by decide)

/-! ## Copying strings -/

theorem skipString_of_string {turns : ℕ} (h : IsString mem s text) (hturns : text.length < turns) :
    skipString mem turns s = some (s + BitVec.ofNat 16 (text.length + 1)) := by
  induction text generalizing s turns with
  | nil =>
    obtain ⟨turns, rfl⟩ := Nat.exists_eq_add_of_lt hturns
    exact if_pos h
  | cons c text ih =>
    obtain ⟨hfirst, hc, hrest⟩ := h
    cases turns with
    | zero => exact absurd hturns (Nat.not_lt_zero _)
    | succ turns =>
      rw [skipString, hfirst, if_neg hc, ih hrest (Nat.lt_of_succ_lt_succ hturns), ← add_succ, List.length_cons]

/-- The rest of a string. -/
theorem IsString.drop (h : IsString mem s text) {k : ℕ} (hk : k ≤ text.length) :
    IsString mem (s + BitVec.ofNat 16 k) (text.drop k) := by
  induction k generalizing s text with
  | zero => simpa using h
  | succ k ih =>
    cases text with
    | nil => exact absurd hk (Nat.not_succ_le_zero k)
    | cons c text =>
      rw [add_succ]
      exact ih h.2.2 (Nat.le_of_succ_le_succ hk)

/-- A string and the zero byte behind it are not in a buffer. -/
def Apart (dst src : Word) (sz : ℕ) (text : List Byte) : Prop :=
  ∀ j ≤ text.length, sz ≤ (src + BitVec.ofNat 16 j - dst).toNat

/-- A string that is not written to. -/
theorem IsString.overlays {dst : Word} {n : ℕ} {bytes : ℕ → Byte} (h : IsString mem s text)
    (hmem : Overlays mem mem' dst n bytes) (hapart : Apart dst s n text) : IsString mem' s text := by
  rw [isString_iff] at h ⊢
  exact ⟨h.1, fun i hi => (hmem.outside (hapart i hi)).trans (h.2 i hi)⟩

/-- The loop of `strlcpy`, after `i` of its bytes: it ends with the zero byte, or where the room for one is. -/
theorem strlcpyLoop_of_string {mem₀ : Word → Byte} {dst src : Word} {sz i turns : ℕ} {n : Word}
    (h : IsString mem₀ src text) (hapart : Apart dst src sz text) (hn : n.toNat + i = sz) (hpos : n ≠ 0)
    (hturns : n.toNat ≤ turns) (hi : i ≤ text.length) (hsz : sz < 2 ^ 16)
    (hmem : Overlays mem₀ mem dst i fun j => text.getD j 0) :
    ∃ mem' n', Overlays mem₀ mem' dst (min (text.length + 1) (sz - 1)) (fun j => text.getD j 0) ∧
      (n' = 0 ↔ sz ≤ text.length + 1) ∧
      strlcpyLoop turns ⟨mem, dst + BitVec.ofNat 16 i, src + BitVec.ofNat 16 i, n⟩ =
        ⟨mem', dst + BitVec.ofNat 16 (min (text.length + 1) (sz - 1)),
          src + BitVec.ofNat 16 (min (text.length + 1) (sz - 1)), n'⟩ := by
  induction turns generalizing i n mem with
  | zero => exact absurd (BitVec.eq_of_toNat_eq (Nat.le_zero.mp hturns)) hpos
  | succ turns ih =>
    have hstring := (isString_iff.mp h).2
    have hroom : i < sz := by bv_omega
    have hread : mem (src + BitVec.ofNat 16 i) = text.getD i 0 := by
      rw [hmem.outside (hroom.le.trans (hapart i hi)), hstring i hi]
    rw [strlcpyLoop]
    dsimp only
    rw [add_one, add_one]
    by_cases hlast : n - 1 = 0
    · have hone : n.toNat = 1 := by bv_omega
      have hk : min (text.length + 1) (sz - 1) = i := by omega
      rw [if_pos hlast, hk]
      exact ⟨mem, n - 1, hmem, iff_of_true hlast (by omega), rfl⟩
    · have hnext : (n - 1).toNat + (i + 1) = sz := by bv_omega
      have hmem' := hmem.succ (by omega)
      rw [if_neg hlast, hread]
      by_cases hend : text.getD i 0 = 0
      · have hlen : i = text.length := by
          by_contra hne
          have hin : i < text.length := by omega
          exact h.ne_nul hin ((hstring i hi).trans hend)
        have hk : min (text.length + 1) (sz - 1) = i + 1 := by bv_omega
        rw [if_pos hend, hk]
        exact ⟨_, n - 1, hmem', iff_of_false hlast (by bv_omega), rfl⟩
      · have hlen : i ≠ text.length := fun heq => hend (List.getD_eq_default _ _ heq.ge)
        rw [if_neg hend]
        exact ih hnext hlast (by omega) (by omega) hmem'

/-- The string that the copy is. -/
theorem IsString.copied {dst src : Word} {sz : ℕ} (h : IsString mem src text) (hpos : 0 < sz) (hsz : sz < 2 ^ 16)
    (hmem : Overlays mem mem' dst (min (text.length + 1) sz) fun j => (text.take (sz - 1)).getD j 0) :
    IsString mem' dst (text.take (sz - 1)) := by
  refine isString_iff.mpr ⟨fun hnul => (isString_iff.mp h).1 (List.mem_of_mem_take hnul), fun i hi => ?_⟩
  rw [List.length_take] at hi
  exact hmem.inside (by omega) (by omega)

/-- The zero byte behind a string that has room, or where its room ends. -/
theorem overlays_terminated {mem₁ : Word → Byte} {dst : Word} {sz : ℕ} (hpos : 0 < sz) (hsz : sz < 2 ^ 16)
    (hshort : sz ≤ text.length + 1)
    (h : Overlays mem mem₁ dst (min (text.length + 1) (sz - 1)) fun j => text.getD j 0) :
    Overlays mem (Function.update mem₁ (dst + BitVec.ofNat 16 (sz - 1)) 0) dst (min (text.length + 1) sz)
      fun j => (text.take (sz - 1)).getD j 0 := by
  have hfew : min (text.length + 1) (sz - 1) = sz - 1 := by omega
  have hall : min (text.length + 1) sz = sz - 1 + 1 := by omega
  have htake : ∀ j < sz - 1, text.getD j 0 = (text.take (sz - 1)).getD j 0 := by
    intro j hj
    rw [List.getD_eq_getElem?_getD, List.getD_eq_getElem?_getD, List.getElem?_take_of_lt hj]
  have hlast : (text.take (sz - 1)).getD (sz - 1) 0 = 0 := by
    apply List.getD_eq_default
    rw [List.length_take]
    exact Nat.min_le_left _ _
  rw [hfew] at h
  rw [hall]
  have hnext := (h.congr htake).succ (by omega)
  rwa [hlast] at hnext

/-- **`strlcpy`** copies as much of a string as there is room for, and a zero byte, and nothing else; its result is the
length of the string. This is the copy in the model of the file systems. -/
theorem strlcpy_copies {dst src sz : Word} (h : IsString mem src text) (hapart : Apart dst src sz.toNat text)
    {turns : ℕ} (hturns : text.length < turns) :
    ∃ mem', strlcpy turns mem dst src sz = some (BitVec.ofNat 16 text.length, mem') ∧
      Overlays mem mem' dst (min (text.length + 1) sz.toNat) (fun j => (text.take (sz.toNat - 1)).getD j 0) ∧
      (sz ≠ 0 → ∃ copy, IsString mem' dst copy ∧
        copy.map UInt8.ofBitVec = Kernel.strlcpy (text.map UInt8.ofBitVec) sz.toNat) := by
  have hresult : src + BitVec.ofNat 16 (text.length + 1) - src - 1 = BitVec.ofNat 16 text.length := by bv_omega
  by_cases hsz : sz = 0
  · subst hsz
    have hskip : strlcpy turns mem dst src 0 = (skipString mem turns src).map fun s => (s - src - 1, mem) := by
      rw [strlcpy]
      simp only [ne_eq, not_true_eq_false, if_false, if_true, Option.bind_eq_bind, Option.pure_def, Option.map_eq_bind,
        Function.comp_def]
    have hnone : min (text.length + 1) (0 : Word).toNat = 0 := Nat.min_zero _
    rw [skipString_of_string h hturns, Option.map_some, hresult] at hskip
    exact ⟨mem, hskip, hnone ▸ Overlays.zero, fun h => absurd rfl h⟩
  have hpos : 0 < sz.toNat := by bv_omega
  obtain ⟨mem₁, n', hmem₁, hn', hloop⟩ := strlcpyLoop_of_string (i := 0) h hapart (Nat.add_zero _) hsz le_rfl
    (Nat.zero_le _) sz.isLt Overlays.zero
  have hstart : ∀ a : Word, a + BitVec.ofNat 16 0 = a := BitVec.add_zero
  rw [hstart, hstart] at hloop
  suffices ∃ mem', strlcpy turns mem dst src sz = some (BitVec.ofNat 16 text.length, mem') ∧
      Overlays mem mem' dst (min (text.length + 1) sz.toNat) fun j => (text.take (sz.toNat - 1)).getD j 0 by
    obtain ⟨mem', hcopy, hmem'⟩ := this
    refine ⟨mem', hcopy, hmem', fun _ => ⟨_, h.copied hpos sz.isLt hmem', ?_⟩⟩
    exact List.map_take
  rw [strlcpy]
  dsimp only
  rw [if_pos hsz, hloop]
  dsimp only
  by_cases hshort : sz.toNat ≤ text.length + 1
  · -- the room ends within the string: the rest of it is skipped
    have hmem' := overlays_terminated hpos sz.isLt hshort hmem₁
    have hk : min (text.length + 1) (sz.toNat - 1) = sz.toNat - 1 := by omega
    have hrest := (h.overlays hmem' fun j hj => (Nat.min_le_right _ _).trans (hapart j hj)).drop (k := sz.toNat - 1)
      (by omega)
    have hdrop : (text.drop (sz.toNat - 1)).length = text.length - (sz.toNat - 1) := List.length_drop
    have hend : src + BitVec.ofNat 16 (sz.toNat - 1) + BitVec.ofNat 16 (text.length - (sz.toNat - 1) + 1) =
        src + BitVec.ofNat 16 (text.length + 1) := by
      rw [BitVec.add_assoc, ← BitVec.ofNat_add]
      congr 2
      omega
    rw [if_pos (hn'.mpr hshort), if_pos hsz, hk]
    refine ⟨_, ?_, hmem'⟩
    rw [skipString_of_string hrest (by omega), hdrop, hend]
    change some (src + BitVec.ofNat 16 (text.length + 1) - src - 1, _) = _
    rw [hresult]
  · have hk : min (text.length + 1) (sz.toNat - 1) = text.length + 1 := by omega
    have hall : min (text.length + 1) sz.toNat = text.length + 1 := by omega
    have htake : text.take (sz.toNat - 1) = text := List.take_of_length_le (by omega)
    rw [hk] at hmem₁ ⊢
    rw [if_neg (fun hzero => hshort (hn'.mp hzero)), hall, htake, hresult]
    exact ⟨mem₁, rfl, hmem₁⟩

/-- The first byte of `/a`, into a buffer of two bytes in front of it. -/
theorem strlcpy_copies_slash :
    ∃ mem', strlcpy 3 (fun a => if a = 2 then 47 else if a = 3 then 97 else 0) 0 2 2 = some (2, mem') ∧
      Overlays (fun a => if a = 2 then 47 else if a = 3 then 97 else 0) mem' 0 2 (fun j => ([47] : List Byte).getD j 0) ∧
      ((2 : Word) ≠ 0 → ∃ copy, IsString mem' 0 copy ∧ copy.map UInt8.ofBitVec = Kernel.strlcpy [47, 97] 2) :=
  have hsource : IsString (fun a => if a = 2 then 47 else if a = 3 then 97 else 0) 2 [47, 97] := by simp [IsString]
  strlcpy_copies hsource (by unfold Apart; decide) (by decide)

end Strings

end I80k.Libc

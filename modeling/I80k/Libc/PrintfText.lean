import I80k.Libc.Printf

/-!
# The text of a format

What a format writes does not depend on what `out` does with it: there is a text, whose characters `out` is called with
one after another. So `printf` and `snprintf` write the same, apart from zero bytes, which `printf` leaves out, and from
what does not fit into the buffer of `snprintf`.

## Main definitions

* `numberText`, `convertText`, `formatText`: the text of a number, of a specifier, and of a format

## Main results

* `vsnprintfLoop_eq`: a format writes its text
* `length_numberBuf`: the buffer of a number is not written to behind its end
* `printf_snprintf_text`: `printf` and `snprintf` write one text
-/

namespace I80k.Libc

open StringInstr (Byte Regs)

/-! ## The texts -/

/-- The text of a buffer with the characters of a number, the last one first. -/
def revText (buf : List Byte) (width : Word) (flags : Flags) : List Byte :=
  let pad := spaces width (BitVec.ofNat 16 buf.length)
  (if !flags.left && !flags.zeropad then pad else []) ++ buf.reverse ++ if flags.left then pad else []

/-- The digits of a number. -/
def numberDigits (value base : ℕ) (flags : Flags) : List Byte :=
  if !flags.precision ∨ value ≠ 0 then digits flags.uppercase base value ntoaBufferSize else []

/-- The width of a number, less the place of its sign. -/
def numberWidth (negative : Bool) (width : Word) (flags : Flags) : Word :=
  if !flags.left then signWidth negative width flags else width

/-- The buffer of a number, from its digits. -/
def numberBuf (buf : List Byte) (negative : Bool) (base : ℕ) (prec width : Word) (flags : Flags) : List Byte :=
  let buf := if !flags.left then leadingZeros buf prec width flags else buf
  let buf := if flags.hash then hashPrefix buf base prec width flags else buf
  pushSign buf negative flags

/-- The text of a number. -/
def numberText (value : ℕ) (negative : Bool) (base : ℕ) (prec width : Word) (flags : Flags) : List Byte :=
  let flags := if value = 0 then { flags with hash := false } else flags
  let width := numberWidth negative width flags
  revText (numberBuf (numberDigits value base flags) negative base prec width flags) width flags

section Text

variable (mem : Word → Byte) (regs : Regs) (args : ℕ → Word)

/-- The argument of an integer: its magnitude and its sign, and the next argument. -/
def integerArg (signed : Bool) (flags : Flags) (va : ℕ) : (ℕ × Bool) × ℕ :=
  let split {w : ℕ} (value : BitVec w) : ℕ × Bool :=
    if signed then ((magnitude value).toNat, value.toInt < 0) else (value.toNat, false)
  if flags.longLong then (split (vaLongLong args va), va + 4)
  else if flags.long then (split (vaLong args va), va + 2)
  else if flags.char then
    (split (if signed then ((args va).setWidth 8).signExtend 16 else ((args va).setWidth 8).setWidth 16), va + 1)
  else (split (args va), va + 1)

/-- The text of an integer. -/
def integerText (spec : Byte) (flags : Flags) (width precision : Word) (va : ℕ) : List Byte × ℕ :=
  let (base, flags) := integerFlags spec flags
  let ((value, negative), va) := integerArg args (spec = ch 'i' ∨ spec = ch 'd') flags va
  (numberText value negative base.toNat precision width flags, va)

/-- A text in a field of a width. -/
def padText (flags : Flags) (width len : Word) (text : List Byte) : List Byte :=
  (if !flags.left then spaces width len else []) ++ text ++ if flags.left then spaces width len else []

/-- The text of a string. -/
def stringText (flags : Flags) (width precision : Word) (va : ℕ) : Option (List Byte × ℕ) :=
  let l := (strnlen mem regs (args va) (if precision ≠ 0 then precision else 0xFFFF)).1
  let l := if flags.precision then (if l < precision then l else precision) else l
  let (bytes, found) := stringBytes mem (args va) (if flags.precision then precision.toNat else 0x10000)
  if flags.precision ∨ found then some (padText flags width l bytes, va + 1) else none

/-- The text of a specifier, and the next argument. -/
def convertText (spec : Byte) (flags : Flags) (width precision : Word) (va : ℕ) : Option (List Byte × ℕ) :=
  if spec ∈ integerSpecs then some (integerText args spec flags width precision va)
  else if spec = ch 'c' then some (padText flags width 1 [(args va).setWidth 8], va + 1)
  else if spec = ch 's' then stringText mem regs args flags width precision va
  else if spec = ch 'p' then
    some (numberText (args va).toNat false 16 precision 4 { flags with zeropad := true, uppercase := true }, va + 1)
  else some ([spec], va)

/-- The text of a format. -/
def formatText : ℕ → List Byte → ℕ → Option (List Byte)
  | 0, _, _ => none
  | _ + 1, [], _ => none
  | turns + 1, c :: format, va =>
    if c = 0 then some []
    else if c ≠ ch '%' then (formatText turns format va).map (c :: ·)
    else
      match directive args va format with
      | some ((width, precision, flags, va), spec :: format) => do
        let (text, va) ← convertText mem regs args spec flags width precision va
        (formatText turns format va).map (text ++ ·)
      | _ => none

end Text

/-! ## One character after another -/

section Output

variable {σ : Type} {out : Byte → Word → σ → σ} {o : Out σ}

@[simp] theorem puts_nil : puts out o [] = o := rfl

@[simp] theorem puts_cons (c : Byte) (cs : List Byte) : puts out o (c :: cs) = puts out (put out o c) cs := rfl

theorem puts_append (cs ds : List Byte) : puts out o (cs ++ ds) = puts out (puts out o cs) ds := List.foldl_append

theorem puts_idx (cs : List Byte) : (puts out o cs).idx = o.idx + BitVec.ofNat 16 cs.length := by
  induction cs generalizing o with
  | nil => simp
  | cons c cs ih =>
    rw [puts_cons, ih, put, List.length_cons, Nat.add_comm, BitVec.ofNat_add, ← BitVec.add_assoc]
    rfl

/-! ## Numbers -/

theorem length_push (buf : List Byte) (c : Byte) (h : buf.length ≤ ntoaBufferSize) :
    (push buf c).length ≤ ntoaBufferSize := by
  rw [push]
  split_ifs with hroom
  · rw [List.length_append, List.length_singleton]
    exact hroom
  · exact h

theorem length_padZeros {buf : List Byte} (n : Word) (h : buf.length ≤ ntoaBufferSize) :
    (padZeros buf n).length ≤ ntoaBufferSize := by
  rw [padZeros, List.length_append, List.length_replicate]
  omega

theorem length_digits (uppercase : Bool) (base value room : ℕ) : (digits uppercase base value room).length ≤ room := by
  induction room generalizing value with
  | zero => exact Nat.le_refl 0
  | succ room ih =>
    rw [digits, List.length_cons]
    split_ifs
    · exact Nat.succ_le_succ (ih _)
    · exact Nat.succ_le_succ (Nat.zero_le room)

theorem length_leadingZeros {buf : List Byte} {prec width : Word} {flags : Flags}
    (h : buf.length ≤ ntoaBufferSize) : (leadingZeros buf prec width flags).length ≤ ntoaBufferSize := by
  rw [leadingZeros]
  split_ifs
  · exact length_padZeros _ (length_padZeros _ h)
  · exact length_padZeros _ h

theorem length_hashRoom (buf : List Byte) (base : ℕ) (prec width : Word) (flags : Flags) :
    (hashRoom buf base prec width flags).length ≤ buf.length := by
  rw [hashRoom]
  dsimp only
  split_ifs
  · rw [List.length_dropLast, List.length_dropLast]
    omega
  · rw [List.length_dropLast]
    omega
  · exact Nat.le_refl _

theorem length_hashPrefix {buf : List Byte} {base : ℕ} {prec width : Word} {flags : Flags}
    (h : buf.length ≤ ntoaBufferSize) : (hashPrefix buf base prec width flags).length ≤ ntoaBufferSize := by
  have hroom := (length_hashRoom buf base prec width flags).trans h
  rw [hashPrefix]
  apply length_push
  split_ifs
  · exact length_push _ _ hroom
  · exact length_push _ _ hroom
  · exact length_push _ _ hroom
  · exact hroom

theorem length_pushSign {buf : List Byte} {negative : Bool} {flags : Flags} (h : buf.length ≤ ntoaBufferSize) :
    (pushSign buf negative flags).length ≤ ntoaBufferSize := by
  rw [pushSign]
  split_ifs
  · exact length_push buf _ h
  · exact length_push buf _ h
  · exact length_push buf _ h
  · exact h

theorem length_numberDigits (value base : ℕ) (flags : Flags) :
    (numberDigits value base flags).length ≤ ntoaBufferSize := by
  rw [numberDigits]
  split_ifs
  · exact length_digits _ _ _ _
  · exact Nat.zero_le _

/-- **The buffer of a number** is not written to behind its end. -/
theorem length_numberBuf {buf : List Byte} (h : buf.length ≤ ntoaBufferSize) (negative : Bool) (base : ℕ)
    (prec width : Word) (flags : Flags) :
    (numberBuf buf negative base prec width flags).length ≤ ntoaBufferSize := by
  rw [numberBuf]
  apply length_pushSign
  split_ifs
  · exact length_hashPrefix (length_leadingZeros h)
  · exact length_hashPrefix h
  · exact length_leadingZeros h
  · exact h

theorem outRev_eq (buf : List Byte) (width : Word) (flags : Flags) :
    outRev out o buf width flags = puts out o (revText buf width flags) := by
  have hlen : ∀ o' : Out σ, (puts out o' buf.reverse).idx - o'.idx = BitVec.ofNat 16 buf.length := by
    intro o'
    rw [puts_idx, List.length_reverse, BitVec.add_comm, BitVec.add_sub_cancel]
  rw [outRev, revText]
  cases hleft : flags.left with
  | true =>
    simp only [Bool.not_true, Bool.false_and, Bool.false_eq_true, if_false, if_true, List.nil_append]
    rw [hlen, puts_append]
  | false =>
    cases hzero : flags.zeropad with
    | true => simp
    | false => simp [puts_append]

theorem ntoa_eq (value : ℕ) (negative : Bool) (base : ℕ) (prec width : Word) (flags : Flags) :
    ntoa out o value negative base prec width flags = puts out o (numberText value negative base prec width flags) := by
  rw [ntoa, numberText, ntoaFormat]
  exact outRev_eq _ _ _

/-! ## Specifiers -/

variable {mem : Word → Byte} {regs : Regs} {args : ℕ → Word}

theorem convertInteger_eq (spec : Byte) (flags : Flags) (width precision : Word) (va : ℕ) :
    convertInteger out args spec flags width precision va o =
      (puts out o (integerText args spec flags width precision va).1,
        (integerText args spec flags width precision va).2) := by
  have hlong : ∀ v : Word, (v.setWidth 32).toNat = v.toNat := fun v => BitVec.toNat_setWidth_of_le (by norm_num)
  rw [convertInteger, integerText]
  rcases integerFlags spec flags with ⟨base, flags⟩
  by_cases hsigned : spec = ch 'i' ∨ spec = ch 'd'
  · simp only [integerArg, hsigned, decide_true, if_true, ntoaLongLong, ntoaLong, ntoa_eq, hlong]
    split_ifs
    · rfl
    · rfl
    · rfl
    · rfl
  · simp only [integerArg, hsigned, decide_false, if_false, Bool.false_eq_true, ntoaLongLong, ntoaLong, ntoa_eq, hlong]
    split_ifs
    · rfl
    · rfl
    · rfl
    · rfl

theorem convertChar_eq (flags : Flags) (width : Word) (va : ℕ) :
    convertChar out args flags width va o = (puts out o (padText flags width 1 [(args va).setWidth 8]), va + 1) := by
  rw [convertChar, padText]
  cases flags.left
  · simp [puts_append]
  · simp

theorem convertString_eq (flags : Flags) (width precision : Word) (va : ℕ) :
    convertString out mem regs args flags width precision va o =
      (stringText mem regs args flags width precision va).map fun (text, va) => (puts out o text, va) := by
  rw [convertString, stringText]
  rcases stringBytes mem (args va) (if flags.precision then precision.toNat else 0x10000) with ⟨bytes, found⟩
  dsimp only
  by_cases hend : flags.precision ∨ found
  · rw [if_pos hend, if_pos hend, padText]
    cases flags.left
    · simp [puts_append]
    · simp [puts_append]
  · rw [if_neg hend, if_neg hend]
    rfl

theorem convert_eq (spec : Byte) (flags : Flags) (width precision : Word) (va : ℕ) :
    convert out mem regs args spec flags width precision va o =
      (convertText mem regs args spec flags width precision va).map fun (text, va) => (puts out o text, va) := by
  rw [convert, convertText]
  split_ifs
  · rw [convertInteger_eq]
    rfl
  · rw [convertChar_eq]
    rfl
  · exact convertString_eq flags width precision va
  · have hpointer : ((args va).setWidth 32).toNat = (args va).toNat := BitVec.toNat_setWidth_of_le (by norm_num)
    rw [convertPointer, ntoaLong, ntoa_eq, hpointer]
    rfl
  · rfl

/-- **A format writes its text.** -/
theorem vsnprintfLoop_eq (turns : ℕ) (format : List Byte) (va : ℕ) :
    vsnprintfLoop out mem regs args turns format va o =
      (formatText mem regs args turns format va).map (puts out o) := by
  induction turns generalizing format va o with
  | zero => rfl
  | succ turns ih =>
    cases format with
    | nil => rfl
    | cons c format =>
      rw [vsnprintfLoop, formatText]
      split_ifs
      · rfl
      · rw [ih, Option.map_map]
        rfl
      · rcases directive args va format with _ | ⟨⟨width, precision, flags, va⟩, rest⟩
        · rfl
        · cases rest with
          | nil => rfl
          | cons spec rest =>
            dsimp only
            rw [convert_eq]
            rcases convertText mem regs args spec flags width precision va with _ | ⟨text, va⟩
            · rfl
            · change vsnprintfLoop out mem regs args turns rest va (puts out o text) =
                ((formatText mem regs args turns rest va).map (text ++ ·)).map (puts out o)
              rw [ih, Option.map_map]
              apply congrArg (Option.map · _)
              funext tail
              exact (puts_append text tail).symm

end Output

/-! ## Buffers and consoles -/

/-- What a buffer holds of a text. -/
def stored (count : Word) (text : List Byte) : List Byte :=
  if count = 0 then [] else text.take (count.toNat - 1) ++ [0]

theorem outBuffer_of_le {count : Word} {i : Word} (hi : count ≤ i) (c : Byte) (idx : Word) (buffer : Word → Byte) :
    outBuffer count c idx buffer i = buffer i := by
  rw [outBuffer]
  split_ifs with hidx
  · have hne : i ≠ idx := by
      rintro rfl
      exact BitVec.not_lt.mpr hi hidx
    exact Function.update_of_ne hne c buffer
  · rfl

/-- Nothing is written behind the end of a buffer. -/
theorem puts_outBuffer_of_le {count i : Word} (hi : count ≤ i) (o : Out (Word → Byte)) (cs : List Byte) :
    (puts (outBuffer count) o cs).state i = o.state i := by
  induction cs generalizing o with
  | nil => rfl
  | cons c cs ih =>
    rw [puts_cons, ih]
    exact outBuffer_of_le hi c o.idx o.state

/-- A text in front of the end of a buffer. -/
theorem puts_outBuffer_of_lt {count i : Word} (hi : i < count) (o : Out (Word → Byte)) {cs : List Byte}
    (hlen : o.idx.toNat + cs.length ≤ 0x10000) :
    (puts (outBuffer count) o cs).state i =
      if o.idx ≤ i then (cs[i.toNat - o.idx.toNat]?).getD (o.state i) else o.state i := by
  induction cs generalizing o with
  | nil => simp
  | cons c cs ih =>
    rw [List.length_cons] at hlen
    have hother : i ≠ o.idx → (put (outBuffer count) o c).state i = o.state i := by
      intro hne
      change outBuffer count c o.idx o.state i = o.state i
      rw [outBuffer]
      split_ifs
      · exact Function.update_of_ne hne c o.state
      · rfl
    have hself : i = o.idx → (put (outBuffer count) o c).state i = c := by
      rintro rfl
      change outBuffer count c o.idx o.state o.idx = c
      rw [outBuffer, if_pos hi, Function.update_self]
    -- the index may only wrap behind the last character
    have hrest : (puts (outBuffer count) (put (outBuffer count) o c) cs).state i =
        if o.idx < i then (cs[i.toNat - o.idx.toNat - 1]?).getD ((put (outBuffer count) o c).state i)
        else (put (outBuffer count) o c).state i := by
      by_cases hwrap : o.idx.toNat + 1 = 0x10000
      · obtain rfl : cs = [] := List.eq_nil_of_length_eq_zero (by omega)
        simp
      · have hidx : (put (outBuffer count) o c).idx.toNat = o.idx.toNat + 1 := by
          change (o.idx + 1).toNat = _
          bv_omega
        rw [ih _ (by omega), hidx, Nat.sub_sub]
        simp only [BitVec.le_def, BitVec.lt_def, hidx, Nat.succ_le_iff]
    rw [puts_cons, hrest]
    rcases lt_trichotomy i.toNat o.idx.toNat with hlt | heq | hgt
    · have hne : i ≠ o.idx := fun h => absurd (congrArg BitVec.toNat h) hlt.ne
      rw [if_neg (by rw [BitVec.lt_def]; omega), if_neg (by rw [BitVec.le_def]; omega), hother hne]
    · have hidx : i = o.idx := BitVec.eq_of_toNat_eq heq
      rw [if_neg (by rw [BitVec.lt_def]; omega), if_pos (by rw [BitVec.le_def]; omega), hself hidx, heq, Nat.sub_self]
      rfl
    · have hne : i ≠ o.idx := fun h => absurd (congrArg BitVec.toNat h) hgt.ne'
      obtain ⟨k, hk⟩ : ∃ k, i.toNat - o.idx.toNat = k + 1 := ⟨i.toNat - o.idx.toNat - 1, by omega⟩
      rw [if_pos (by rw [BitVec.lt_def]; omega), if_pos (by rw [BitVec.le_def]; omega), hother hne, hk,
        Nat.add_sub_cancel, List.getElem?_cons_succ]

/-- A text and its zero byte, in a buffer. -/
theorem outBuffer_text {count : Word} {buffer : Word → Byte} {text : List Byte} (hlen : text.length < 0x10000)
    (i : Word) :
    let o := puts (outBuffer count) ⟨buffer, 0⟩ text
    outBuffer count 0 (if o.idx < count then o.idx else count - 1) o.state i =
      ((stored count text)[i.toNat]?).getD (buffer i) := by
  intro o
  have hzero : ∀ j : Word, 0 ≤ j := fun j => BitVec.le_def.mpr (Nat.zero_le _)
  have hidx : o.idx.toNat = text.length := by
    rw [puts_idx]
    simp [Nat.mod_eq_of_lt hlen]
  by_cases hcount : count = 0
  · have hle : count ≤ i := by
      rw [hcount]
      exact hzero i
    rw [outBuffer_of_le hle, stored, if_pos hcount]
    exact puts_outBuffer_of_le hle _ text
  have hpos : 0 < count.toNat := Nat.pos_of_ne_zero fun h => hcount (BitVec.eq_of_toNat_eq h)
  -- the place of the zero byte
  have hlast : (if o.idx < count then o.idx else count - 1).toNat = min text.length (count.toNat - 1) := by
    split_ifs with hfits
    · rw [BitVec.lt_def] at hfits
      omega
    · rw [BitVec.lt_def] at hfits
      bv_omega
  generalize hend : (if o.idx < count then o.idx else count - 1) = last at hlast
  have hlt : last < count := by
    rw [BitVec.lt_def]
    omega
  rw [outBuffer, if_pos hlt, stored, if_neg hcount]
  by_cases hi : i = last
  · rw [hi, Function.update_self, hlast, List.getElem?_append_right (by simp)]
    simp
  · have hne : i.toNat ≠ min text.length (count.toNat - 1) := fun h => hi (BitVec.eq_of_toNat_eq (h.trans hlast.symm))
    rw [Function.update_of_ne hi]
    by_cases hbehind : count ≤ i
    · rw [puts_outBuffer_of_le hbehind, List.getElem?_eq_none]
      · rfl
      · rw [BitVec.le_def] at hbehind
        simp only [List.length_append, List.length_take, List.length_singleton]
        omega
    · have hin : i < count := BitVec.not_le.mp hbehind
      have hfits : (0 : Word).toNat + text.length ≤ 0x10000 := by
        simp
        omega
      rw [puts_outBuffer_of_lt hin _ hfits, if_pos (hzero i)]
      rw [BitVec.lt_def] at hin
      rcases Nat.lt_or_gt_of_ne hne with hbefore | hafter
      · rw [List.getElem?_append_left (by rw [List.length_take]; omega), List.getElem?_take_of_lt (by omega)]
        rfl
      · have htext : text[i.toNat]? = none := List.getElem?_eq_none (by omega)
        have hstored : (text.take (count.toNat - 1) ++ [0])[i.toNat]? = none := by
          apply List.getElem?_eq_none
          simp only [List.length_append, List.length_take, List.length_singleton]
          omega
        rw [hstored]
        change (text[i.toNat]?).getD (buffer i) = buffer i
        rw [htext]
        rfl

theorem puts_outChar (o : Out (List Byte)) (cs : List Byte) :
    (puts outChar o cs).state = o.state ++ cs.filter (· ≠ 0) := by
  induction cs generalizing o with
  | nil => exact (List.append_nil _).symm
  | cons c cs ih =>
    rw [puts_cons, ih, List.filter_cons]
    change outChar c o.idx o.state ++ _ = _
    rw [outChar]
    by_cases hc : c = 0
    · simp [hc]
    · rw [if_pos hc, if_pos (decide_eq_true hc), List.append_assoc]
      rfl

/-- The number of characters that were output from the beginning. -/
theorem puts_idx_zero {σ : Type} (out : Byte → Word → σ → σ) (state : σ) (text : List Byte) :
    (puts out ⟨state, 0⟩ text).idx = BitVec.ofNat 16 text.length := by
  rw [puts_idx]
  exact BitVec.zero_add _

section Functions

variable (mem : Word → Byte) (regs : Regs) (args : ℕ → Word)

/-- What `snprintf` makes of the text of a format without a buffer: its length. -/
theorem snprintfNull_eq_formatText (count : Word) (format : List Byte) :
    snprintfNull mem regs args count format =
      (formatText mem regs args format.length format 0).map fun text => BitVec.ofNat 16 text.length := by
  rw [snprintfNull, vsnprintf, vsnprintfLoop_eq]
  rcases formatText mem regs args format.length format 0 with _ | text
  · rfl
  · rw [Option.map_some, Option.bind_eq_bind, Option.bind_some, Option.map_some, Option.map_some]
    exact congrArg some (puts_idx_zero outNull () text)

/-- What `printf` makes of the text of a format. -/
theorem printf_eq_formatText (format : List Byte) :
    printf mem regs args format = (formatText mem regs args format.length format 0).map fun text =>
      (text.filter (· ≠ 0), BitVec.ofNat 16 text.length) := by
  rw [printf, vsnprintf, vsnprintfLoop_eq]
  rcases formatText mem regs args format.length format 0 with _ | text
  · rfl
  · have hsent := puts_outChar ⟨[], 0⟩ text
    rw [Option.map_some, Option.bind_eq_bind, Option.bind_some, puts_idx_zero, Option.map_some]
    change some ((puts outChar ⟨[], 0⟩ text).state, _) = _
    rw [hsent]
    rfl

/-- What `snprintf` leaves of the text of a format in its buffer. -/
theorem snprintf_of_formatText {format text : List Byte} (buffer : Word → Byte) (count : Word)
    (h : formatText mem regs args format.length format 0 = some text) :
    ∃ buffer', snprintf mem regs args buffer count format = some (buffer', BitVec.ofNat 16 text.length) ∧
      (∀ i, count ≤ i → buffer' i = buffer i) ∧
      (text.length < 0x10000 → ∀ i, buffer' i = ((stored count text)[i.toNat]?).getD (buffer i)) := by
  have hidx := puts_idx_zero (outBuffer count) buffer text
  let o := puts (outBuffer count) ⟨buffer, 0⟩ text
  refine ⟨outBuffer count 0 (if o.idx < count then o.idx else count - 1) o.state, ?_, ?_, ?_⟩
  · rw [snprintf, vsnprintf, vsnprintfLoop_eq, h, Option.map_some, Option.bind_eq_bind, Option.bind_some, ← hidx]
  · intro i hi
    rw [outBuffer_of_le hi]
    exact puts_outBuffer_of_le hi _ text
  · intro hlen i
    exact outBuffer_text hlen i

end Functions

/-- **`printf` and `snprintf` write one text**, or both of them have no result. -/
theorem printf_snprintf_text (mem : Word → Byte) (regs : Regs) (args : ℕ → Word) (buffer : Word → Byte) (count : Word)
    (format : List Byte) :
    printf mem regs args format = none ∧ snprintf mem regs args buffer count format = none ∨
      ∃ text : List Byte, printf mem regs args format = some (text.filter (· ≠ 0), BitVec.ofNat 16 text.length) ∧
        ∃ buffer', snprintf mem regs args buffer count format = some (buffer', BitVec.ofNat 16 text.length) ∧
          (∀ i, count ≤ i → buffer' i = buffer i) ∧
          (text.length < 0x10000 → ∀ i, buffer' i = ((stored count text)[i.toNat]?).getD (buffer i)) := by
  rw [printf_eq_formatText]
  rcases htext : formatText mem regs args format.length format 0 with _ | text
  · refine .inl ⟨rfl, ?_⟩
    rw [snprintf, vsnprintf, vsnprintfLoop_eq, htext]
    rfl
  · exact .inr ⟨text, rfl, snprintf_of_formatText mem regs args buffer count htext⟩

end I80k.Libc

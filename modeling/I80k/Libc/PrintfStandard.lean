import I80k.Libc.PrintfNumber

/-!
# Integers as the C standard has them

The C standard says what a directive for an integer writes: a sign, and digits, no fewer than the precision; in a field
of the width, which is filled with spaces on the right, with zeros behind the sign, or with spaces on the left. It says,
too, of which type the argument is.

A width or a precision can be an argument: a negative width is a flag `-` and its absolute value, and a negative
precision is none.

As long as the buffer has room this is what is written, except that a precision is ignored in a field that is aligned to
the left, and that a negative precision is taken to be zero; and the argument is of this type, except that 64 bits are
taken for a `ptrdiff_t` and for a `size_t`.

## Main definitions

* `Directive.standardFields`: what the C standard takes the fields of a directive to say
* `standardArg`: the argument that it asks for
* `standardText`: and its text

## Main results

* `Directive.fields_standard`: the fields are those of the standard, except for a negative precision
* `integer_standard_iff`: when the text is the one of a directive
-/

namespace I80k.Libc

open StringInstr (Byte Regs)

/-! ## What the standard says -/

/-- The specifiers whose integers have a sign. -/
def IsSigned (spec : Byte) : Prop := spec = ch 'i' ∨ spec = ch 'd'

instance : DecidablePred IsSigned := fun _ => inferInstanceAs (Decidable (_ ∨ _))

/-- The value of digits. -/
def decimalValue (digits : List Byte) : ℕ := digits.foldl (fun i c => i * 10 + (c - ch '0').toNat) 0

/-- The number that a directive has, and the next argument. A star stands for an `int`. -/
def Amount.standard (args : ℕ → Word) (va : ℕ) : Amount → Option ℤ × ℕ
  | .absent => (none, va)
  | .number digits => (some (decimalValue digits), va)
  | .star => (some (args va).toInt, va + 1)

/-- What a directive says: the width, the precision, the flags, and the next argument. -/
def Directive.standardFields (d : Directive) (args : ℕ → Word) (va : ℕ) : ℕ × Option ℕ × Flags × ℕ :=
  let flags := d.flags.foldl setFlag {}
  let (width, va) := d.width.standard args va
  let (precision, va) := d.precision.standard args va
  let width := width.getD 0
  let flags := if width < 0 then { flags with left := true } else flags
  (width.natAbs, (precision.filter (0 ≤ ·)).map Int.toNat, flags, va)

/-- The precision is a negative argument. -/
def Directive.NegativePrecision (d : Directive) (args : ℕ → Word) (va : ℕ) : Prop :=
  d.precision = .star ∧ (args (d.width.standard args va).2).toInt < 0

/-- The integer of some bits. -/
def intValue {w : ℕ} (signed : Bool) (v : BitVec w) : ℤ := if signed then v.toInt else v.toNat

/-- The argument of an integer, and the next one. Words are of 16 bits, as `ptrdiff_t` and `size_t`, and `intmax_t` is a
`long`. -/
def standardArg (args : ℕ → Word) (signed : Bool) (va : ℕ) : Length → ℤ × ℕ
  | .absent | .h | .t | .z => (intValue signed (args va), va + 1)
  | .hh => (intValue signed ((args va).setWidth 8), va + 1)
  | .l | .j => (intValue signed (vaLong args va), va + 2)
  | .ll => (intValue signed (vaLongLong args va), va + 4)

/-- The base of a specifier. -/
def specBase (spec : Byte) : ℕ := if spec = ch 'x' ∨ spec = ch 'X' then 16 else if spec = ch 'o' then 8 else 10

/-- The digits of a number, the first one first; zero has none. -/
def plainDigits (spec : Byte) (value : ℕ) : List Byte :=
  ((Nat.digits (specBase spec) value).map (digitChar (spec = ch 'X'))).reverse

/-- The digits, no fewer than the precision, which is one if there is none. -/
def standardDigits (spec : Byte) (precision : Option ℕ) (value : ℕ) : List Byte :=
  List.replicate (precision.getD 1 - (plainDigits spec value).length) (ch '0') ++ plainDigits spec value

/-- The sign of an integer. -/
def standardSign (spec : Byte) (flags : Flags) (value : ℤ) : List Byte :=
  if value < 0 then [ch '-']
  else if IsSigned spec ∧ flags.plus then [ch '+']
  else if IsSigned spec ∧ flags.space then [ch ' ']
  else []

/-- What a directive without `#` writes of an integer. Zeros fill a field only if there is no precision, and if it is
not aligned to the left. -/
def standardText (spec : Byte) (flags : Flags) (width : ℕ) (precision : Option ℕ) (value : ℤ) : List Byte :=
  let sign := standardSign spec flags value
  let digits := standardDigits spec precision value.natAbs
  let pad := width - (sign.length + digits.length)
  if flags.left then sign ++ digits ++ List.replicate pad (ch ' ')
  else if flags.zeropad ∧ precision = none then sign ++ List.replicate pad (ch '0') ++ digits
  else List.replicate pad (ch ' ') ++ sign ++ digits

/-! ## What is written -/

/-- The flags that a specifier admits. -/
def specFlags (spec : Byte) (flags : Flags) : Flags :=
  { flags with
    uppercase := flags.uppercase || spec = ch 'X'
    plus := flags.plus && IsSigned spec
    space := flags.space && IsSigned spec
    zeropad := flags.zeropad && !flags.precision }

/-- The base of a specifier, and its flags, where there is no prefix. -/
theorem integerFlags_eq {spec : Byte} (hspec : spec ∈ integerSpecs) (hbinary : spec ≠ ch 'b') {flags : Flags}
    (hhash : flags.hash = false) :
    integerFlags spec flags = (BitVec.ofNat 16 (specBase spec), specFlags spec flags) := by
  obtain ⟨zeropad, left, plus, space, hash, uppercase, char, short, long, longLong, precision⟩ := flags
  obtain rfl : hash = false := hhash
  simp only [integerSpecs, List.mem_cons, List.not_mem_nil, or_false] at hspec
  rcases hspec with rfl | rfl | rfl | rfl | rfl | rfl | rfl
  on_goal 7 => exact absurd rfl hbinary
  all_goals cases precision <;> simp [integerFlags, specFlags, specBase, IsSigned, ch]

/-- Flags that do not say of which type an argument is, nor that digits are capitals. -/
structure Plainly (flags : Flags) : Prop where
  long : flags.long = false
  longLong : flags.longLong = false
  char : flags.char = false
  uppercase : flags.uppercase = false

theorem Plainly.setFlags {flags : Flags} (h : Plainly flags) (cs : List Byte) : Plainly (cs.foldl setFlag flags) := by
  induction cs generalizing flags with
  | nil => exact h
  | cons c cs ih =>
    apply ih
    rw [setFlag]
    split_ifs <;> exact ⟨h.long, h.longLong, h.char, h.uppercase⟩

theorem Plainly.setPrecision {flags : Flags} (h : Plainly flags) (given : Bool) :
    Plainly { flags with precision := given } :=
  ⟨h.long, h.longLong, h.char, h.uppercase⟩

/-- No flag says that there is a precision. -/
theorem precision_foldl_setFlag {flags : Flags} (cs : List Byte) (h : flags.precision = false) :
    (cs.foldl setFlag flags).precision = false := by
  induction cs generalizing flags with
  | nil => exact h
  | cons c cs ih =>
    apply ih
    rw [setFlag]
    split_ifs <;> exact h

/-- And only one asks for a prefix. -/
theorem hash_foldl_setFlag {flags : Flags} {cs : List Byte} (hcs : ch '#' ∉ cs) (h : flags.hash = false) :
    (cs.foldl setFlag flags).hash = false := by
  induction cs generalizing flags with
  | nil => exact h
  | cons c cs ih =>
    rw [List.mem_cons, not_or] at hcs
    apply ih hcs.2
    rw [setFlag]
    split_ifs with h₁ h₂ h₃ h₄ hc
    · exact h
    · exact h
    · exact h
    · exact h
    · exact absurd hc.symm hcs.1
    · exact h

/-- The value of digits, in the 16 bits that there are for it. -/
theorem digitsValue_eq (digits : List Byte) : digitsValue digits = BitVec.ofNat 16 (decimalValue digits) := by
  have hstep : ∀ i : ℕ, digits.foldl (fun i c => i * 10 + (c - ch '0').setWidth 16) (BitVec.ofNat 16 i) =
      BitVec.ofNat 16 (digits.foldl (fun i c => i * 10 + (c - ch '0').toNat) i) := by
    induction digits with
    | nil => exact fun _ => rfl
    | cons c digits ih =>
      intro i
      rw [List.foldl_cons, List.foldl_cons, ← ih]
      congr 1
      apply BitVec.eq_of_toNat_eq
      simp
  exact hstep 0

/-- The width of a directive, and its flags. -/
theorem Amount.width_standard (args : ℕ → Word) (flags : Flags) (va : ℕ) (amount : Amount)
    (hwidth : ((amount.standard args va).1.getD 0).natAbs < 2 ^ 16) :
    ((amount.width args flags va).1.toNat = ((amount.standard args va).1.getD 0).natAbs ∧
      (amount.width args flags va).2 =
        (if (amount.standard args va).1.getD 0 < 0 then { flags with left := true } else flags,
          (amount.standard args va).2)) := by
  cases amount with
  | absent => exact ⟨rfl, rfl⟩
  | number digits =>
    have hvalue : (digitsValue digits).toNat = decimalValue digits := by
      rw [digitsValue_eq, BitVec.toNat_ofNat]
      exact Nat.mod_eq_of_lt hwidth
    refine ⟨hvalue, ?_⟩
    rw [Amount.standard, Option.getD_some, if_neg (not_lt.mpr (Int.natCast_nonneg _))]
    rfl
  | star =>
    rw [Amount.width, Amount.standard, Option.getD_some]
    have hlt := (args va).isLt
    have hint := BitVec.toInt_eq_toNat_cond (args va)
    split_ifs with hneg
    · refine ⟨?_, rfl⟩
      rw [BitVec.toNat_neg]
      split_ifs at hint <;> omega
    · refine ⟨?_, rfl⟩
      change (args va).toNat = _
      split_ifs at hint <;> omega

/-- The precision of a directive. The code says that there is one, zero, where an argument is negative. -/
theorem Amount.precision_standard (args : ℕ → Word) (flags : Flags) (va : ℕ) (amount : Amount)
    (hprec : ∀ p : ℤ, (amount.standard args va).1 = some p → p < 32) (hflags : flags.precision = false) :
    ∃ precision given,
      amount.precision args flags va = (precision, { flags with precision := given }, (amount.standard args va).2) ∧
      precision.toNat < 32 ∧ (given = false → precision = 0) ∧
      (amount = .star ∧ (args va).toInt < 0 → given = true ∧ precision = 0) ∧
      (¬ (amount = .star ∧ (args va).toInt < 0) → (if given then some precision.toNat else none) =
        ((amount.standard args va).1.filter (0 ≤ ·)).map Int.toNat) := by
  cases amount with
  | absent =>
    refine ⟨0, false, by simp [Amount.precision, Amount.standard, ← hflags], by simp, fun _ => rfl, by simp, ?_⟩
    exact fun _ => rfl
  | number digits =>
    have hlt := hprec _ rfl
    have hvalue : (digitsValue digits).toNat = decimalValue digits := by
      rw [digitsValue_eq, BitVec.toNat_ofNat]
      exact Nat.mod_eq_of_lt (by omega)
    refine ⟨digitsValue digits, true, rfl, by omega, by simp, by simp, fun _ => ?_⟩
    rw [if_pos rfl, hvalue, Amount.standard, Option.filter_some, if_pos (by simp)]
    rfl
  | star =>
    have hlt : (args va).toInt < 32 := hprec _ rfl
    have hnat : 0 ≤ (args va).toInt → (args va).toInt.toNat = (args va).toNat := by
      intro hle
      have hint := BitVec.toInt_eq_toNat_cond (args va)
      have hword := (args va).isLt
      split_ifs at hint <;> omega
    by_cases hpos : 0 < (args va).toInt
    · have hle := hpos.le
      refine ⟨args va, true, by rw [Amount.precision, if_pos hpos, Amount.standard], ?_, by simp, fun h => ?_,
        fun _ => ?_⟩
      · rw [← hnat hle]
        omega
      · exact absurd h.2 (not_lt.mpr hle)
      · rw [if_pos rfl, Amount.standard, Option.filter_some, if_pos (by simpa using hle), Option.map_some, hnat hle]
    · refine ⟨0, true, by rw [Amount.precision, if_neg hpos, Amount.standard], by simp, by simp, fun _ => ⟨rfl, rfl⟩,
        fun h => ?_⟩
      have hzero : (args va).toInt = 0 := by
        simp only [true_and] at h
        omega
      rw [if_pos rfl, Amount.standard, hzero]
      rfl

/-- **The fields of a directive** are those of the standard, except for a negative precision. -/
theorem Directive.fields_standard (d : Directive) (args : ℕ → Word) {va va' width : ℕ} {precision : Option ℕ}
    {flags : Flags} (hfields : d.standardFields args va = (width, precision, flags, va')) (hwidth : width < 2 ^ 16)
    (hprec : ∀ p, precision = some p → p < 32) :
    ∃ w p given, d.fields args va = (w, p, d.length.set { flags with precision := given }, va') ∧ w.toNat = width ∧
      Plainly flags ∧ p.toNat < 32 ∧ (given = false → p = 0) ∧
      (d.NegativePrecision args va → given = true ∧ p = 0 ∧ precision = none) ∧
      (¬ d.NegativePrecision args va → (if given then some p.toNat else none) = precision) := by
  have hplain : Plainly (d.flags.foldl setFlag {}) := Plainly.setFlags ⟨rfl, rfl, rfl, rfl⟩ d.flags
  have hnone : (d.flags.foldl setFlag {}).precision = false := precision_foldl_setFlag d.flags rfl
  simp only [Directive.standardFields, Prod.mk.injEq] at hfields
  obtain ⟨rfl, rfl, rfl, rfl⟩ := hfields
  obtain ⟨hw, hrest⟩ := Amount.width_standard args (d.flags.foldl setFlag {}) va d.width hwidth
  generalize hstart : d.flags.foldl setFlag {} = flags at *
  generalize hset : (if (d.width.standard args va).1.getD 0 < 0 then { flags with left := true } else flags) =
    flags' at *
  have hplain' : Plainly flags' ∧ flags'.precision = false := by
    rw [← hset]
    split_ifs
    · exact ⟨⟨hplain.long, hplain.longLong, hplain.char, hplain.uppercase⟩, hnone⟩
    · exact ⟨hplain, hnone⟩
  have hsmall : ∀ q : ℤ, (d.precision.standard args (d.width.standard args va).2).1 = some q → q < 32 := by
    intro q hq
    rcases lt_or_ge q 0 with hlt | hle
    · omega
    · have := hprec q.toNat (by rw [hq, Option.filter_some, if_pos (by simpa using hle), Option.map_some])
      omega
  obtain ⟨p, given, hread, hlt, hzero, hneg, hpos⟩ := Amount.precision_standard args flags'
    (d.width.standard args va).2 d.precision hsmall hplain'.2
  refine ⟨_, p, given, ?_, hw, hplain'.1, hlt, hzero, fun h => ?_, hpos⟩
  · rw [Directive.fields, hstart]
    simp only [hrest, hread]
  · obtain ⟨hgiven, hp⟩ := hneg h
    refine ⟨hgiven, hp, ?_⟩
    rw [h.1, Amount.standard, Option.filter_some, if_neg (by simpa using h.2)]
    rfl

theorem Length.set_precision (length : Length) (flags : Flags) : (length.set flags).precision = flags.precision := by
  cases length <;> rfl

theorem Length.set_uppercase (length : Length) (flags : Flags) : (length.set flags).uppercase = flags.uppercase := by
  cases length <;> rfl

theorem Length.set_hash (length : Length) (flags : Flags) : (length.set flags).hash = flags.hash := by
  cases length <;> rfl

theorem Length.set_zeropad (length : Length) (flags : Flags) : (length.set flags).zeropad = flags.zeropad := by
  cases length <;> rfl

theorem Length.set_left (length : Length) (flags : Flags) : (length.set flags).left = flags.left := by
  cases length <;> rfl

section Argument

variable (args : ℕ → Word) (signed : Bool) (va : ℕ)

/-- The argument is the one of the standard, -/
theorem Plainly.arg_of_ne {flags : Flags} (h : Plainly flags) {length : Length} (ht : length ≠ .t) (hz : length ≠ .z) :
    (integerValue args signed (length.set flags) va, (integerArg args signed (length.set flags) va).2) =
      standardArg args signed va length := by
  cases length with
  | absent => simp [integerValue, integerArg, Length.set, standardArg, intValue, h.long, h.longLong, h.char]
  | l => simp [integerValue, integerArg, Length.set, standardArg, intValue, h.longLong]
  | ll => simp [integerValue, integerArg, Length.set, standardArg, intValue]
  | h => simp [integerValue, integerArg, Length.set, standardArg, intValue, h.long, h.longLong, h.char]
  | hh => simp [integerValue, integerArg, Length.set, standardArg, intValue, h.long, h.longLong]
  | t => exact absurd rfl ht
  | j => simp [integerValue, integerArg, Length.set, standardArg, intValue, h.longLong]
  | z => exact absurd rfl hz

/-- or the next one is elsewhere. -/
theorem next_ne_standardArg (flags : Flags) {length : Length} (hlength : ¬ (length ≠ .t ∧ length ≠ .z)) :
    (integerArg args signed (length.set flags) va).2 ≠ (standardArg args signed va length).2 := by
  cases length with
  | t => simp [integerArg, Length.set, standardArg]
  | z => simp [integerArg, Length.set, standardArg]
  | _ => exact absurd ⟨by simp, by simp⟩ hlength

end Argument

theorem length_plainDigits (spec : Byte) {value : ℕ} (hvalue : value < 2 ^ 64) :
    (plainDigits spec value).length ≤ 22 := by
  have hbase : 8 ≤ specBase spec := by
    rw [specBase]
    split_ifs <;> norm_num
  rw [plainDigits, List.length_reverse, List.length_map, Nat.digits_length_le_iff (by omega)]
  exact hvalue.trans_le ((by norm_num : 2 ^ 64 ≤ 8 ^ 22).trans (Nat.pow_le_pow_left hbase _))

/-- The digits of a specifier, for which the buffer has room. -/
theorem numberDigits_reverse {spec : Byte} {value : ℕ} (hvalue : value < 2 ^ 64) {flags : Flags}
    (hupper : flags.uppercase = decide (spec = ch 'X')) :
    (numberDigits value (specBase spec) flags).reverse =
      if flags.precision then plainDigits spec value else standardDigits spec none value := by
  have hbase : 2 ≤ specBase spec := by
    rw [specBase]
    split_ifs <;> norm_num
  have hfits : (Nat.digits (specBase spec) value).length ≤ ntoaBufferSize := by
    have hlen := length_plainDigits spec hvalue
    rw [plainDigits, List.length_reverse, List.length_map] at hlen
    exact hlen.trans (by decide)
  rw [numberDigits, digits_eq _ hbase, hupper]
  by_cases hzero : value = 0
  · subst hzero
    cases flags.precision with
    | true => simp [plainDigits]
    | false => simp [standardDigits, plainDigits, digitChar, ntoaBufferSize, ch]
  · have hlen : 1 ≤ (plainDigits spec value).length := by
      rw [plainDigits, List.length_reverse, List.length_map, Nat.one_le_iff_ne_zero, ne_eq,
        List.length_eq_zero_iff, Nat.digits_eq_nil_iff_eq_zero]
      exact hzero
    have hplain : standardDigits spec none value = plainDigits spec value := by
      rw [standardDigits, Option.getD_none, Nat.sub_eq_zero_of_le hlen, List.replicate_zero, List.nil_append]
    rw [if_pos (.inr hzero), if_neg hzero, List.take_of_length_le hfits, hplain, ite_self]
    rfl

/-- The width that is left behind a sign, where zeros are. -/
theorem toNat_signWidth {negative : Bool} {width : Word} {flags : Flags} (hzero : flags.zeropad = true) :
    (signWidth negative width flags).toNat = width.toNat - (signText negative flags).length := by
  rw [signWidth, signText]
  by_cases hany : negative = true ∨ flags.plus = true ∨ flags.space = true
  · have hone : (if negative = true then [ch '-'] else if flags.plus = true then [ch '+']
        else if flags.space = true then [ch ' '] else []).length = 1 := by
      split_ifs
      · rfl
      · rfl
      · rfl
      · exact absurd hany (by simp_all)
    rw [hone]
    split_ifs with hplace
    · bv_omega
    · have hnil : width = 0 := by
        by_contra hne
        exact hplace ⟨hne, hzero, hany⟩
      simp [hnil]
  · rw [if_neg fun h => hany h.2.2]
    simp only [not_or, Bool.not_eq_true] at hany
    simp [hany.1, hany.2.1, hany.2.2]

section Number

variable (spec : Byte) (negative : Bool) {value : ℕ} {precision width : Word} {flags : Flags}

/-- What is written of a number, with the flags that its specifier admits. -/
theorem numberText_standard (hvalue : value < 2 ^ 64) (hhash : flags.hash = false) (hupper : flags.uppercase = false)
    (hnone : flags.precision = false → precision = 0) (hprec : precision.toNat < 32)
    (hwidth : flags.zeropad = true → flags.left = false → width.toNat ≤ 32) :
    let sign := signText negative (specFlags spec flags)
    let digits := standardDigits spec (if flags.precision then some precision.toNat else none) value
    let written := if flags.left ∧ flags.precision then plainDigits spec value else digits
    let pad := width.toNat - (sign.length + written.length)
    numberText value negative (specBase spec) precision width (specFlags spec flags) =
      if flags.left then sign ++ written ++ List.replicate pad (ch ' ')
      else if flags.zeropad ∧ flags.precision = false then sign ++ List.replicate pad (ch '0') ++ digits
      else List.replicate pad (ch ' ') ++ sign ++ digits := by
  have hleft : (specFlags spec flags).left = flags.left := rfl
  have hprecision : (specFlags spec flags).precision = flags.precision := rfl
  have hzeropad : (specFlags spec flags).zeropad = (flags.zeropad && !flags.precision) := rfl
  have hhash' : (specFlags spec flags).hash = false := hhash
  have hcapital : (specFlags spec flags).uppercase = decide (spec = ch 'X') := by
    change (flags.uppercase || _) = _
    rw [hupper, Bool.false_or]
  generalize specFlags spec flags = flags' at *
  intro sign digits written pad
  have hone : sign.length ≤ 1 := length_signText negative flags'
  have hplain := length_plainDigits spec hvalue
  have hreverse := numberDigits_reverse hvalue hcapital
  have hcount : (numberDigits value (specBase spec) flags').length =
      (if flags'.precision then plainDigits spec value else standardDigits spec none value).length := by
    rw [← hreverse, List.length_reverse]
  have hfew : (if flags'.precision then plainDigits spec value else standardDigits spec none value).length ≤ 22 := by
    split_ifs
    · exact hplain
    · rw [standardDigits, List.length_append, List.length_replicate, Option.getD_none]
      omega
  have hroom : (numberDigits value (specBase spec) flags').length +
      zerosOf (numberDigits value (specBase spec) flags').length negative precision width flags' + sign.length ≤
        ntoaBufferSize := by
    refine zerosOf_room ?_ hprec fun hzero hright => hwidth ?_ (hleft.symm.trans hright)
    · rw [hcount]
      change _ + sign.length ≤ 32
      omega
    · rw [hzeropad, Bool.and_eq_true] at hzero
      exact hzero.1
  rw [numberText_eq hhash' hroom, hreverse, hcount]
  rw [hprecision] at hfew ⊢
  cases hl : flags.left with
  | true =>
    -- there are no zeros
    have hzeros : ∀ n, zerosOf n negative precision width flags' = 0 := fun n => if_pos (hleft.trans hl)
    rw [fieldText, hleft.trans hl, if_pos rfl, if_pos rfl, hzeros, List.replicate_zero, List.nil_append,
      List.length_append]
    cases hp : flags.precision with
    | true => simp [sign, written, pad, hl, hp]
    | false => simp [sign, written, pad, digits, hl, hp]
  | false =>
    have hwritten : written = digits := if_neg (by simp [hl])
    have hpad : pad = width.toNat - (sign.length + digits.length) := by rw [← hwritten]
    have hfield : ∀ text, fieldText width flags' text =
        if flags'.zeropad then text else List.replicate (width.toNat - text.length) (ch ' ') ++ text := by
      intro text
      rw [fieldText, hleft.trans hl]
      rfl
    have hzeros : ∀ n, zerosOf n negative precision width flags' = max (min precision.toNat ntoaBufferSize - n)
        (if flags'.zeropad then min (signWidth negative width flags').toNat ntoaBufferSize - n else 0) := by
      intro n
      rw [zerosOf, hleft.trans hl]
      rfl
    rw [hfield, hzeros, hzeropad, if_neg Bool.false_ne_true]
    cases hp : flags.precision with
    | true =>
      -- zeros up to the precision
      have hdigits : digits = List.replicate (precision.toNat - (plainDigits spec value).length) (ch '0') ++
          plainDigits spec value := by simp only [digits, hp, if_true, standardDigits, Option.getD_some]
      have hmin : min precision.toNat ntoaBufferSize = precision.toNat := min_eq_left hprec.le
      simp only [Bool.not_true, Bool.and_false, Bool.false_eq_true, if_false, if_true, hmin, Nat.max_zero, ← hdigits,
        Bool.true_eq_false, and_false, List.length_append, hpad, List.append_assoc, sign]
    | false =>
      have hdigits : digits = standardDigits spec none value := by simp only [digits, hp, Bool.false_eq_true, if_false]
      have hnil : min precision.toNat ntoaBufferSize = 0 := by rw [hnone hp]; rfl
      rw [hnil, Nat.zero_sub, Nat.zero_max]
      cases hz : flags.zeropad with
      | true =>
        -- zeros up to the width
        have hsign : (signWidth negative width flags').toNat = width.toNat - sign.length := by
          apply toNat_signWidth
          rw [hzeropad, hp, hz]
          rfl
        have hmin : min (width.toNat - sign.length) ntoaBufferSize = width.toNat - sign.length :=
          min_eq_left ((Nat.sub_le _ _).trans (hwidth hz hl))
        simp only [Bool.not_false, Bool.and_true, Bool.false_eq_true, if_false, if_true, hsign, hmin, ← hdigits,
          true_and, Nat.sub_sub, hpad, List.append_assoc, sign]
      | false =>
        simp only [Bool.not_false, Bool.and_true, Bool.false_eq_true, if_false, ← hdigits, false_and, hpad,
          List.replicate_zero, List.nil_append, List.length_append, List.append_assoc, sign]

end Number

/-! ## Integers -/

/-- The sign of an integer that is given to a directive. -/
theorem integerArg_negative (args : ℕ → Word) (signed : Bool) (flags : Flags) (va : ℕ) :
    (integerArg args signed flags va).1.2 = decide (integerValue args signed flags va < 0) := by
  cases signed with
  | false =>
    have hnonneg : 0 ≤ integerValue args false flags va := by
      rw [← integerArg_value, integerArg_unsigned]
      exact Int.natCast_nonneg _
    rw [integerArg_unsigned, decide_eq_false (not_lt.mpr hnonneg)]
  | true =>
    have hchar : (((args va).setWidth 8).signExtend 16).toInt = ((args va).setWidth 8).toInt :=
      BitVec.toInt_signExtend_of_le (by norm_num)
    rw [integerArg, integerValue]
    simp only [if_true]
    split_ifs
    · rfl
    · rfl
    · rw [hchar]
    · rfl

/-- And its magnitude. -/
theorem integerArg_natAbs (args : ℕ → Word) (signed : Bool) (flags : Flags) (va : ℕ) :
    (integerArg args signed flags va).1.1 = (integerValue args signed flags va).natAbs := by
  rw [← integerArg_value]
  split_ifs
  · rw [Int.natAbs_neg, Int.natAbs_natCast]
  · exact (Int.natAbs_natCast _).symm

theorem signText_standard {spec : Byte} {value : ℤ} {flags flags' : Flags}
    (hplus : flags'.plus = (flags.plus && decide (IsSigned spec)))
    (hspace : flags'.space = (flags.space && decide (IsSigned spec))) :
    signText (decide (value < 0)) flags' = standardSign spec flags value := by
  rw [signText, standardSign, hplus, hspace]
  simp only [decide_eq_true_eq, Bool.and_eq_true, and_comm]

/-- A number does not begin with a zero. -/
theorem head?_plainDigits (spec : Byte) (value : ℕ) : (plainDigits spec value).head? ≠ some (ch '0') := by
  have hzero : ∀ uppercase, ∀ d < 16, digitChar uppercase d = ch '0' → d = 0 := by decide
  have hbase : 2 ≤ specBase spec ∧ specBase spec ≤ 16 := by
    rw [specBase]
    split_ifs <;> norm_num
  intro hhead
  rw [plainDigits, List.head?_reverse, List.getLast?_map, Option.map_eq_some_iff] at hhead
  obtain ⟨d, hlast, hd⟩ := hhead
  obtain ⟨hne, rfl⟩ := List.mem_getLast?_eq_getLast hlast
  have hlt : (Nat.digits (specBase spec) value).getLast hne < 16 :=
    (Nat.digits_lt_base hbase.1 (List.getLast_mem hne)).trans_le hbase.2
  have hvalue : value ≠ 0 := fun h => hne (Nat.digits_eq_nil_iff_eq_zero.mpr h)
  exact Nat.getLast_digit_ne_zero (specBase spec) hvalue (hzero _ _ hlt hd)

/-- Zeros in front of a number are seen. -/
theorem plainDigits_eq_standardDigits_iff (spec : Byte) (sign : List Byte) (width precision value : ℕ) :
    sign ++ plainDigits spec value ++
        List.replicate (width - (sign.length + (plainDigits spec value).length)) (ch ' ') =
      sign ++ standardDigits spec (some precision) value ++
        List.replicate (width - (sign.length + (standardDigits spec (some precision) value).length)) (ch ' ') ↔
      ¬ (plainDigits spec value).length < precision := by
  constructor
  · intro heq hless
    obtain ⟨zeros, hzeros⟩ : ∃ zeros, precision - (plainDigits spec value).length = zeros + 1 :=
      ⟨_, (Nat.succ_pred_eq_of_pos (Nat.sub_pos_of_lt hless)).symm⟩
    have hdigits : standardDigits spec (some precision) value =
        ch '0' :: (List.replicate zeros (ch '0') ++ plainDigits spec value) := by
      rw [standardDigits, Option.getD_some, hzeros, List.replicate_succ, List.cons_append]
    rw [List.append_assoc, List.append_assoc, List.append_cancel_left_eq, hdigits, List.cons_append] at heq
    have hhead := congrArg List.head? heq
    rw [List.head?_cons, List.head?_append] at hhead
    have hne := head?_plainDigits spec value
    cases hfirst : (plainDigits spec value).head? with
    | some c =>
      rw [hfirst, Option.some_or] at hhead
      exact hne (hfirst.trans hhead)
    | none =>
      rw [hfirst, Option.none_or] at hhead
      have hspace := List.eq_of_mem_replicate (List.mem_of_mem_head? hhead)
      exact absurd hspace (by decide)
  · intro hmore
    have hsame : standardDigits spec (some precision) value = plainDigits spec value := by
      rw [standardDigits, Option.getD_some, Nat.sub_eq_zero_of_le (not_lt.mp hmore), List.replicate_zero,
        List.nil_append]
    rw [hsame]

/-- The text of a directive of an integer without `#`, and the next argument. -/
theorem Directive.text_of_integer (mem : Word → Byte) (regs : Regs) {args : ℕ → Word} {d : Directive}
    (hspec : d.spec ∈ integerSpecs) (hbinary : d.spec ≠ ch 'b') {va va' : ℕ} {width precision : Word} {flags : Flags}
    (hfields : d.fields args va = (width, precision, flags, va')) (hhash : flags.hash = false) :
    d.text mem regs args va =
      some (numberText (integerArg args (IsSigned d.spec) flags va').1.1
        (integerArg args (IsSigned d.spec) flags va').1.2 (specBase d.spec) precision width (specFlags d.spec flags),
        (integerArg args (IsSigned d.spec) flags va').2) := by
  have hbase : (BitVec.ofNat 16 (specBase d.spec)).toNat = specBase d.spec := by
    rw [specBase]
    split_ifs <;> rfl
  have hinteger : integerText args d.spec flags width precision va' =
      (numberText (integerArg args (IsSigned d.spec) (integerFlags d.spec flags).2 va').1.1
        (integerArg args (IsSigned d.spec) (integerFlags d.spec flags).2 va').1.2 (integerFlags d.spec flags).1.toNat
        precision width (integerFlags d.spec flags).2,
      (integerArg args (IsSigned d.spec) (integerFlags d.spec flags).2 va').2) := rfl
  have hsame : integerArg args (IsSigned d.spec) (specFlags d.spec flags) va' =
      integerArg args (IsSigned d.spec) flags va' := rfl
  rw [Directive.text, hfields]
  refine (if_pos hspec).trans ?_
  rw [hinteger, integerFlags_eq hspec hbinary hhash, hsame, hbase]

/-- When the text of an integer is that of the standard. -/
theorem numberText_eq_standardText_iff (spec : Byte) {value : ℤ} (hvalue : value.natAbs < 2 ^ 64)
    {precision width : Word} {flags : Flags} (hhash : flags.hash = false) (hupper : flags.uppercase = false)
    (hnone : flags.precision = false → precision = 0) (hprec : precision.toNat < 32)
    (hwidth : flags.zeropad = true → flags.left = false → width.toNat ≤ 32) :
    numberText value.natAbs (decide (value < 0)) (specBase spec) precision width (specFlags spec flags) =
        standardText spec flags width.toNat (if flags.precision then some precision.toNat else none) value ↔
      ¬ (flags.left = true ∧ flags.precision = true ∧
        (plainDigits spec value.natAbs).length < precision.toNat) := by
  have hwritten := numberText_standard spec (decide (value < 0)) hvalue hhash hupper hnone hprec hwidth
  rw [signText_standard rfl rfl] at hwritten
  have hprecision : (if flags.precision then some precision.toNat else none) = none ↔ flags.precision = false := by
    cases flags.precision <;> simp
  rw [hwritten, standardText]
  simp only [hprecision]
  by_cases hcut : flags.left = true ∧ flags.precision = true
  · -- the zeros up to the precision are left out
    rw [if_pos hcut, hcut.1, hcut.2, if_pos rfl, if_pos rfl, if_pos rfl]
    refine (plainDigits_eq_standardDigits_iff _ _ _ _ _).trans (not_congr ?_)
    simp
  · rw [if_neg hcut]
    exact iff_of_true rfl fun h => hcut ⟨h.1, h.2.1⟩

theorem standardText_set (spec : Byte) (flags : Flags) (length : Length) (given : Bool) (width : ℕ)
    (precision : Option ℕ) (value : ℤ) :
    standardText spec (length.set { flags with precision := given }) width precision value =
      standardText spec flags width precision value := by
  cases length <;> rfl

/-- A precision of zero is none, if there are digits and no zeros to fill the field with. -/
theorem standardText_zero_iff (spec : Byte) (flags : Flags) (width : ℕ) (value : ℤ) :
    standardText spec flags width (some 0) value = standardText spec flags width none value ↔
      value ≠ 0 ∧ (flags.zeropad = true → flags.left = false →
        width ≤ (standardSign spec flags value).length + (plainDigits spec value.natAbs).length) := by
  by_cases hvalue : value = 0
  · -- the standard has a digit here
    subst hvalue
    refine iff_of_false (fun heq => ?_) (by simp)
    have hnil : plainDigits spec 0 = [] := by simp [plainDigits]
    have hmem := congrArg (fun text => ch '0' ∈ text) heq
    have hsign : ch '0' ∉ standardSign spec flags 0 := by
      rw [standardSign]
      split_ifs <;> simp [ch]
    have hspace : ch '0' ≠ ch ' ' := by decide
    simp only [standardText, standardDigits, Int.natAbs_zero, hnil, Option.getD_some, Option.getD_none] at hmem
    split_ifs at hmem <;> simp_all
  · have hlen : 1 ≤ (plainDigits spec value.natAbs).length := by
      rw [plainDigits, List.length_reverse, List.length_map, Nat.one_le_iff_ne_zero, ne_eq, List.length_eq_zero_iff,
        Nat.digits_eq_nil_iff_eq_zero, Int.natAbs_eq_zero]
      exact hvalue
    have hdigits : ∀ precision : Option ℕ, precision.getD 1 ≤ 1 →
        standardDigits spec precision value.natAbs = plainDigits spec value.natAbs := by
      intro precision hle
      rw [standardDigits, Nat.sub_eq_zero_of_le (hle.trans hlen), List.replicate_zero, List.nil_append]
    simp only [standardText, hdigits (some 0) (by simp), hdigits none le_rfl, ne_eq, hvalue, not_false_eq_true,
      true_and, reduceCtorEq, and_false, if_false, and_true]
    generalize hpad : width - _ = pad
    by_cases hfill : flags.left = false ∧ flags.zeropad = true
    · rw [hfill.1, hfill.2]
      simp only [Bool.false_eq_true, if_false, if_true, forall_const]
      refine Iff.trans ⟨fun heq => ?_, fun hnone => ?_⟩ (show pad = 0 ↔ _ by omega)
      · -- the zeros are counted
        have hcount := congrArg (List.count (ch '0')) heq
        have hspace : (ch ' ' == ch '0') = false := by decide
        simp only [List.count_append, List.count_replicate, beq_self_eq_true, if_true, hspace, Bool.false_eq_true,
          if_false] at hcount
        omega
      · simp [hnone]
    · refine iff_of_true ?_ fun hzero hright => absurd ⟨hright, hzero⟩ hfill
      split_ifs with hl hz
      · rfl
      · exact absurd ⟨by simpa using hl, hz⟩ hfill
      · rfl

/-- `%5.3d`, with some flags. -/
def fiveThree (flags : List Byte) (hflags : ∀ c ∈ flags, c ∈ flagChars) : Directive :=
  ⟨flags, .number [ch '5'], .number [ch '3'], .absent, ch 'd', hflags, by simp [ch, flagChars, isDigit],
    by simp [ch, isDigit], ⟨by decide, by decide, by decide, by decide⟩, by decide⟩

/-- **Integers as the C standard has them.** For every directive of an integer without `#`, with a width of 16 bits, a
precision of less than 32 and, if it is filled with zeros, a width of at most 32: it writes what the C standard asks for,
and leaves the arguments that it does, if, and only if, the argument is no `ptrdiff_t` or `size_t`; a field that is
aligned to the left does not have a precision that is more than the number of digits; and where an argument is given as
a negative precision, the integer is not zero, and no zeros fill the field. -/
theorem integer_standard_iff (mem : Word → Byte) (regs : Regs) (args : ℕ → Word) {d : Directive}
    (hspec : d.spec ∈ integerSpecs) (hbinary : d.spec ≠ ch 'b') (hhash : ch '#' ∉ d.flags) {va va' next width : ℕ}
    {precision : Option ℕ} {flags : Flags} {value : ℤ}
    (hfields : d.standardFields args va = (width, precision, flags, va'))
    (harg : standardArg args (IsSigned d.spec) va' d.length = (value, next)) (hsize : width < 2 ^ 16)
    (hprec : ∀ p, precision = some p → p < 32) (hwidth : flags.zeropad = true → flags.left = false → width ≤ 32) :
    d.text mem regs args va = some (standardText d.spec flags width precision value, next) ↔
      (d.length ≠ .t ∧ d.length ≠ .z) ∧
      (∀ p, precision = some p → flags.left = true → p ≤ (plainDigits d.spec value.natAbs).length) ∧
      (d.NegativePrecision args va → value ≠ 0 ∧ (flags.zeropad = true → flags.left = false →
        width ≤ (standardSign d.spec flags value).length + (plainDigits d.spec value.natAbs).length)) := by
  obtain ⟨w, p, given, hread, rfl, hplain, hlt, hzero, hneg, hpos⟩ := d.fields_standard args hfields hsize hprec
  have hhash' : (d.length.set { flags with precision := given }).hash = false := by
    rw [Length.set_hash]
    simp only [Directive.standardFields, Prod.mk.injEq] at hfields
    rw [← hfields.2.2.1]
    split_ifs <;> exact hash_foldl_setFlag hhash rfl
  rw [Directive.text_of_integer mem regs hspec hbinary hread hhash', Option.some_inj, Prod.mk.injEq]
  by_cases hlength : d.length ≠ .t ∧ d.length ≠ .z
  · -- the argument is the integer
    have hinteger := Plainly.arg_of_ne args (IsSigned d.spec) va' (hplain.setPrecision given) hlength.1 hlength.2
    rw [harg, Prod.mk.injEq] at hinteger
    obtain ⟨hvalue, hnext⟩ := hinteger
    have hmag : value.natAbs < 2 ^ 64 := by
      rw [← hvalue, ← integerArg_natAbs]
      exact integerArg_lt _ _ _ _
    have hupper : (d.length.set { flags with precision := given }).uppercase = false :=
      (Length.set_uppercase _ _).trans hplain.uppercase
    have hcode := numberText_eq_standardText_iff d.spec hmag hhash' hupper
      (by rwa [Length.set_precision]) hlt (by rwa [Length.set_zeropad, Length.set_left])
    rw [Length.set_precision, Length.set_left, standardText_set] at hcode
    rw [and_iff_left hnext, and_iff_right hlength, integerArg_natAbs, integerArg_negative, hvalue]
    by_cases hnegative : d.NegativePrecision args va
    · -- what is written is what the standard has for a precision of zero
      obtain ⟨rfl, rfl, rfl⟩ := hneg hnegative
      rw [hcode.mpr (by simp)]
      refine (standardText_zero_iff d.spec flags w.toNat value).trans ?_
      simp [hnegative]
    · have hprecision := hpos hnegative
      rw [hprecision] at hcode
      rw [hcode, ← hprecision]
      cases given with
      | true => simp [hnegative, not_lt]
      | false => simp [hnegative]
  · -- and otherwise the next one is elsewhere
    have hne := next_ne_standardArg args (IsSigned d.spec) va' { flags with precision := given } hlength
    rw [harg] at hne
    exact iff_of_false (fun h => hne h.2) fun h => hlength h.1

/-- `%-5.3d` of 7 should be `007` and two spaces, and is not; `%5.3d` is two spaces and `007`. -/
theorem integer_standard_iff_left :
    ¬ Directive.text (fun _ => 0) ⟨0, 0, 0, 0, 0, 0, false, []⟩ (fun _ => 7) (fiveThree [ch '-'] (by decide)) 0 =
        some ([ch '0', ch '0', ch '7', ch ' ', ch ' '], 1) ∧
      Directive.text (fun _ => 0) ⟨0, 0, 0, 0, 0, 0, false, []⟩ (fun _ => 7) (fiveThree [] (by decide)) 0 =
        some ([ch ' ', ch ' ', ch '0', ch '0', ch '7'], 1) := by
  have hleft := @integer_standard_iff (fun _ => 0) ⟨0, 0, 0, 0, 0, 0, false, []⟩ (fun _ => 7)
    (fiveThree [ch '-'] (by decide)) (by decide) (by decide) (by decide) 0 _ _ _ _ _ _ rfl rfl (by decide)
    (fun p hp => by obtain rfl := Option.some.inj hp; decide) (fun hzero => absurd hzero (by decide))
  have hright := @integer_standard_iff (fun _ => 0) ⟨0, 0, 0, 0, 0, 0, false, []⟩ (fun _ => 7)
    (fiveThree [] (by decide)) (by decide) (by decide) (by decide) 0 _ _ _ _ _ _ rfl rfl (by decide)
    (fun p hp => by obtain rfl := Option.some.inj hp; decide) (fun hzero => absurd hzero (by decide))
  refine ⟨fun htext => ?_, hright.mpr ⟨⟨by simp [fiveThree], by simp [fiveThree]⟩, fun _ _ h => ?_, fun h => ?_⟩⟩
  · have := (hleft.mp htext).2.1 3 rfl rfl
    exact absurd this (by decide)
  · exact absurd h (by decide)
  · exact absurd h.1 (by simp [fiveThree])

end I80k.Libc

import I80k.Libc.PrintfFormat

/-!
# Numbers in formats

The digits of a number are those of its base, as many as the buffer has room for. What a directive for an integer
writes is a field of spaces, a sign, zeros, and these digits; it is read back as the integer that was given, but for
binary numbers of a `long long`, of which only the lower 32 digits are written.

## Main definitions

* `strtol`: the integer that a text begins with
* `integerValue`: the integer that is given to a directive
* `signText`, `zerosOf`, `fieldText`: the parts of the text of a number

## Main results

* `digits_eq`: the digits of a number
* `numberText_eq`: the parts of the text of a number
* `integer_reads_back`: integers are read back
-/

namespace I80k.Libc

open StringInstr (Byte Regs)

/-! ## Digits -/

/-- The value of a digit. -/
def digitValue (c : Byte) : ℕ :=
  if isDigit c then (c - ch '0').toNat
  else if ch 'a' ≤ c then (c - ch 'a').toNat + 10
  else (c - ch 'A').toNat + 10

/-- The value of digits. -/
def readNat (base : ℕ) (text : List Byte) : ℕ := text.foldl (fun v c => v * base + digitValue c) 0

theorem digitValue_digitChar (uppercase : Bool) {d : ℕ} (hd : d < 16) : digitValue (digitChar uppercase d) = d := by
  revert uppercase d
  decide

/-- **The digits of a number**, as many as there is room for. -/
theorem digits_eq (uppercase : Bool) {base : ℕ} (hbase : 2 ≤ base) (value room : ℕ) :
    digits uppercase base value room =
      ((if value = 0 then [0] else Nat.digits base value).take room).map (digitChar uppercase) := by
  induction room generalizing value with
  | zero => rfl
  | succ room ih =>
    rw [digits]
    by_cases hvalue : value = 0
    · simp [hvalue]
    · rw [if_neg hvalue, Nat.digits_def' hbase (Nat.pos_of_ne_zero hvalue), List.take_succ_cons, List.map_cons]
      by_cases hmore : value / base = 0
      · simp [hmore]
      · rw [if_pos hmore, ih, if_neg hmore]

theorem readNat_reverse (base : ℕ) (ds : List Byte) :
    readNat base ds.reverse = Nat.ofDigits base (ds.map digitValue) := by
  rw [readNat, List.foldl_reverse, Nat.ofDigits_eq_foldr, List.foldr_map]
  congr 1
  funext c v
  simp only [Nat.cast_id]
  ring

theorem digitValue_digits (uppercase : Bool) {base : ℕ} (hbase : 2 ≤ base) (hbase' : base ≤ 16) (value room : ℕ) :
    (digits uppercase base value room).map digitValue =
      (if value = 0 then [0] else Nat.digits base value).take room := by
  have hall : ∀ d ∈ (if value = 0 then [0] else Nat.digits base value).take room, d < 16 := by
    intro d hd
    have hmem := List.mem_of_mem_take hd
    split_ifs at hmem
    · simp at hmem
      omega
    · exact (Nat.digits_lt_base hbase hmem).trans_le hbase'
  rw [digits_eq uppercase hbase, List.map_map]
  exact (List.map_congr_left fun d hd => digitValue_digitChar uppercase (hall d hd)).trans (List.map_id' _)

/-- **Digits are read back**, as many as there was room for. -/
theorem readNat_digits (uppercase : Bool) {base : ℕ} (hbase : 2 ≤ base) (hbase' : base ≤ 16) (value room : ℕ) :
    readNat base (digits uppercase base value room).reverse = value % base ^ room := by
  rw [readNat_reverse, digitValue_digits uppercase hbase hbase', Nat.self_mod_pow_eq_ofDigits_take _ _ hbase]
  split_ifs with hvalue
  · subst hvalue
    cases room
    · rfl
    · simp
  · rfl

/-- Zeros in front of digits. -/
theorem readNat_zeros (base n : ℕ) (ds : List Byte) :
    readNat base (List.replicate n (ch '0') ++ ds) = readNat base ds := by
  induction n with
  | zero => rfl
  | succ n ih =>
    have hzero : 0 * base + digitValue (ch '0') = 0 := by
      rw [show digitValue (ch '0') = 0 by decide, Nat.zero_mul]
    rw [List.replicate_succ, List.cons_append, readNat, List.foldl_cons, hzero]
    exact ih

/-! ## The parts of a text -/

/-- The sign of a number. -/
def signText (negative : Bool) (flags : Flags) : List Byte :=
  if negative then [ch '-'] else if flags.plus then [ch '+'] else if flags.space then [ch ' '] else []

/-- The number of zeros in front of the digits. -/
def zerosOf (len : ℕ) (negative : Bool) (prec width : Word) (flags : Flags) : ℕ :=
  if flags.left then 0
  else max (min prec.toNat ntoaBufferSize - len)
    (if flags.zeropad then min (signWidth negative width flags).toNat ntoaBufferSize - len else 0)

/-- The field of spaces around a text of a length. -/
def fieldText (width : Word) (flags : Flags) (text : List Byte) : List Byte :=
  let pad := List.replicate (width.toNat - text.length) (ch ' ')
  if flags.left then text ++ pad else if flags.zeropad then text else pad ++ text

theorem leadingZeros_eq {buf : List Byte} {negative : Bool} {prec width : Word} {flags : Flags}
    (hleft : flags.left = false) :
    leadingZeros buf prec (signWidth negative width flags) flags =
      buf ++ List.replicate (zerosOf buf.length negative prec width flags) (ch '0') := by
  rw [leadingZeros, zerosOf, hleft, padZeros]
  cases hzero : flags.zeropad
  · simp [padZeros]
  · simp only [if_true, Bool.false_eq_true, if_false, padZeros, List.length_append, List.length_replicate,
      List.append_assoc, ← List.replicate_add]
    congr 2
    omega

theorem pushSign_eq {buf : List Byte} {negative : Bool} {flags : Flags}
    (h : buf.length + (signText negative flags).length ≤ ntoaBufferSize) :
    pushSign buf negative flags = buf ++ signText negative flags := by
  rw [pushSign, signText] at *
  split_ifs at h ⊢
  · exact if_pos h
  · exact if_pos h
  · exact if_pos h
  · exact (List.append_nil buf).symm

/-- The flags of a number without a prefix. -/
theorem without_hash {flags : Flags} (hhash : flags.hash = false) (value : ℕ) :
    (if value = 0 then { flags with hash := false } else flags) = flags := by
  split_ifs
  · rw [← hhash]
  · rfl

theorem spaces_of_le {len : ℕ} (hlen : len ≤ ntoaBufferSize) (width : Word) :
    spaces width (BitVec.ofNat 16 len) = List.replicate (width.toNat - len) (ch ' ') := by
  have hlt : len < 2 ^ 16 := hlen.trans_lt (by decide)
  rw [spaces, BitVec.toNat_ofNat, Nat.mod_eq_of_lt hlt]

theorem length_signText (negative : Bool) (flags : Flags) : (signText negative flags).length ≤ 1 := by
  rw [signText]
  split_ifs
  · exact Nat.le_refl 1
  · exact Nat.le_refl 1
  · exact Nat.le_refl 1
  · exact Nat.zero_le 1

theorem reverse_signText (negative : Bool) (flags : Flags) :
    (signText negative flags).reverse = signText negative flags := by
  rw [signText]
  split_ifs
  · rfl
  · rfl
  · rfl
  · rfl

/-- **The text of a number** without a prefix, if the buffer has room for it. -/
theorem numberText_eq {value base : ℕ} {negative : Bool} {prec width : Word} {flags : Flags}
    (hhash : flags.hash = false)
    (hroom : (numberDigits value base flags).length +
      zerosOf (numberDigits value base flags).length negative prec width flags +
      (signText negative flags).length ≤ ntoaBufferSize) :
    numberText value negative base prec width flags =
      fieldText width flags (signText negative flags ++
        (List.replicate (zerosOf (numberDigits value base flags).length negative prec width flags) (ch '0') ++
          (numberDigits value base flags).reverse)) := by
  rw [numberText, without_hash hhash]
  generalize numberDigits value base flags = ds at hroom ⊢
  have hbuf : numberBuf ds negative base prec (numberWidth negative width flags) flags =
      ds ++ List.replicate (zerosOf ds.length negative prec width flags) (ch '0') ++ signText negative flags := by
    rw [numberBuf, hhash]
    cases hleft : flags.left with
    | true =>
      have hzeros : zerosOf ds.length negative prec width flags = 0 := if_pos hleft
      rw [hzeros] at hroom ⊢
      rw [List.replicate_zero, List.append_nil]
      exact pushSign_eq hroom
    | false =>
      have hwidth : numberWidth negative width flags = signWidth negative width flags := by
        rw [numberWidth, hleft]
        rfl
      have hfull : (ds ++ List.replicate (zerosOf ds.length negative prec width flags) (ch '0')).length +
          (signText negative flags).length ≤ ntoaBufferSize := by
        rwa [List.length_append, List.length_replicate]
      rw [hwidth, leadingZeros_eq hleft]
      exact pushSign_eq hfull
  have hlen : (numberBuf ds negative base prec (numberWidth negative width flags) flags).length ≤ ntoaBufferSize := by
    rw [hbuf, List.length_append, List.length_append, List.length_replicate]
    exact hroom
  rw [revText, spaces_of_le hlen, hbuf, List.reverse_append, List.reverse_append, reverse_signText,
    List.reverse_replicate, fieldText]
  -- the field is as wide as the text, in either order
  have htext : (ds ++ List.replicate (zerosOf ds.length negative prec width flags) (ch '0') ++
      signText negative flags).length =
      (signText negative flags ++
        (List.replicate (zerosOf ds.length negative prec width flags) (ch '0') ++ ds.reverse)).length := by
    simp only [List.length_append, List.length_reverse]
    omega
  rw [htext]
  cases hleft : flags.left with
  | true =>
    have hwidth : numberWidth negative width flags = width := by
      rw [numberWidth, hleft]
      rfl
    simp [hwidth]
  | false =>
    cases hzero : flags.zeropad with
    | true => simp
    | false =>
      have hwidth : numberWidth negative width flags = width := by
        rw [numberWidth, hleft]
        change signWidth negative width flags = width
        rw [signWidth, if_neg (by simp [hzero])]
      simp [hwidth]

/-! ## Reading back -/

/-- A digit of a base up to 16. -/
def isXdigit (c : Byte) : Bool := isDigit c || (ch 'a' ≤ c && c ≤ ch 'f') || (ch 'A' ≤ c && c ≤ ch 'F')

/-- The integer that a text begins with, behind its spaces. -/
def strtol (base : ℕ) (text : List Byte) : ℤ :=
  match text.dropWhile (· = ch ' ') with
  | [] => 0
  | c :: text =>
    if c = ch '-' then -readNat base (text.takeWhile isXdigit)
    else if c = ch '+' then readNat base (text.takeWhile isXdigit)
    else readNat base ((c :: text).takeWhile isXdigit)

theorem isXdigit_digitChar (uppercase : Bool) {d : ℕ} (hd : d < 16) : isXdigit (digitChar uppercase d) = true := by
  revert uppercase d
  decide

theorem isXdigit_digits (uppercase : Bool) {base : ℕ} (hbase : 2 ≤ base) (hbase' : base ≤ 16) (value room : ℕ) :
    ∀ c ∈ digits uppercase base value room, isXdigit c = true := by
  intro c hc
  rw [digits_eq uppercase hbase] at hc
  obtain ⟨d, hd, rfl⟩ := List.mem_map.mp hc
  apply isXdigit_digitChar
  have hmem := List.mem_of_mem_take hd
  split_ifs at hmem
  · simp at hmem
    omega
  · exact (Nat.digits_lt_base hbase hmem).trans_le hbase'

theorem strtol_spaces (base n : ℕ) (text : List Byte) :
    strtol base (List.replicate n (ch ' ') ++ text) = strtol base text := by
  have hdrop : (List.replicate n (ch ' ') ++ text).dropWhile (· = ch ' ') = text.dropWhile (· = ch ' ') := by
    induction n with
    | zero => rfl
    | succ n ih =>
      rw [List.replicate_succ, List.cons_append, List.dropWhile_cons_of_pos (by simp)]
      exact ih
  rw [strtol, strtol, hdrop]

/-- Digits in front of spaces. -/
theorem takeWhile_digits {ds : List Byte} (hds : ∀ c ∈ ds, isXdigit c = true) (n : ℕ) :
    (ds ++ List.replicate n (ch ' ')).takeWhile isXdigit = ds := by
  rw [List.takeWhile_append_of_pos hds]
  cases n with
  | zero => exact List.append_nil ds
  | succ n =>
    rw [List.replicate_succ, List.takeWhile_cons_of_neg (by decide)]
    exact List.append_nil ds

theorem strtol_sign {b : ℕ} {ds : List Byte} (hds : ∀ c ∈ ds, isXdigit c = true) (negative : Bool) (flags : Flags)
    (n : ℕ) :
    strtol b (signText negative flags ++ ds ++ List.replicate n (ch ' ')) =
      if negative then -(readNat b ds : ℤ) else readNat b ds := by
  have hplain : strtol b (ds ++ List.replicate n (ch ' ')) = readNat b ds := by
    cases ds with
    | nil =>
      have hnil := strtol_spaces b n []
      rw [List.append_nil] at hnil
      rw [List.nil_append, hnil]
      rfl
    | cons d ds =>
      have hd := hds d List.mem_cons_self
      have hne : ∀ c, isXdigit c = false → d ≠ c := by
        rintro c hc rfl
        rw [hd] at hc
        cases hc
      rw [strtol, List.cons_append, List.dropWhile_cons_of_neg (by simpa using hne _ (by decide))]
      dsimp only
      rw [if_neg (hne _ (by decide)), if_neg (hne _ (by decide)), ← List.cons_append, takeWhile_digits hds]
  rw [signText]
  split_ifs
  · change -(readNat b ((ds ++ List.replicate n (ch ' ')).takeWhile isXdigit) : ℤ) = _
    rw [takeWhile_digits hds]
  · change (readNat b ((ds ++ List.replicate n (ch ' ')).takeWhile isXdigit) : ℤ) = _
    rw [takeWhile_digits hds]
  · have hspace := strtol_spaces b 1 (ds ++ List.replicate n (ch ' '))
    rw [List.append_assoc]
    exact hspace.trans hplain
  · exact hplain

/-- A number in its field is read back. -/
theorem strtol_fieldText {base : ℕ} {ds : List Byte} (hds : ∀ c ∈ ds, isXdigit c = true) (negative : Bool)
    (width : Word) (flags : Flags) :
    strtol base (fieldText width flags (signText negative flags ++ ds)) =
      if negative then -(readNat base ds : ℤ) else readNat base ds := by
  have hbare : strtol base (signText negative flags ++ ds) =
      if negative then -(readNat base ds : ℤ) else readNat base ds := by
    have h := strtol_sign (b := base) hds negative flags 0
    rwa [List.replicate_zero, List.append_nil] at h
  rw [fieldText]
  cases flags.left with
  | true => exact strtol_sign hds negative flags _
  | false =>
    cases flags.zeropad with
    | true => exact hbare
    | false => exact (strtol_spaces base _ _).trans hbare

/-- A sign in front of zeros has a place. -/
theorem signWidth_lt {negative : Bool} {width : Word} {flags : Flags} (hwidth : width.toNat ≤ 32)
    (hzero : flags.zeropad = true) (hsign : signText negative flags ≠ []) :
    (signWidth negative width flags).toNat < 32 := by
  have hany : negative = true ∨ flags.plus = true ∨ flags.space = true := by
    by_contra hnone
    simp only [not_or, Bool.not_eq_true] at hnone
    exact hsign (by simp [signText, hnone.1, hnone.2.1, hnone.2.2])
  rw [signWidth]
  split_ifs with hplace
  · bv_omega
  · have hnil : width = 0 := by
      by_contra hne
      exact hplace ⟨hne, hzero, hany⟩
    simp [hnil]

/-- The buffer has room for a number of few zeros. -/
theorem zerosOf_room {len : ℕ} {negative : Bool} {prec width : Word} {flags : Flags}
    (hlen : len + (signText negative flags).length ≤ ntoaBufferSize) (hprec : prec.toNat < 32)
    (hwidth : flags.zeropad = true → flags.left = false → width.toNat ≤ 32) :
    len + zerosOf len negative prec width flags + (signText negative flags).length ≤ ntoaBufferSize := by
  have hsize : ntoaBufferSize = 32 := rfl
  rw [hsize] at hlen ⊢
  rw [zerosOf, hsize]
  cases hleft : flags.left with
  | true =>
    simp only [if_true]
    omega
  | false =>
    cases hzero : flags.zeropad with
    | false =>
      have hone := length_signText negative flags
      simp only [Bool.false_eq_true, if_false]
      omega
    | true =>
      simp only [Bool.false_eq_true, if_false, if_true]
      by_cases hsign : signText negative flags = []
      · rw [hsign, List.length_nil]
        rw [hsign, List.length_nil] at hlen
        omega
      · have hone := length_signText negative flags
        have hlt := signWidth_lt (hwidth hzero hleft) hzero hsign
        omega

/-- **A number** without a prefix is read back, as much of it as there was room for. -/
theorem strtol_numberText {value base : ℕ} {negative : Bool} {prec width : Word} {flags : Flags}
    (hhash : flags.hash = false) (hbase : 2 ≤ base) (hbase' : base ≤ 16) (hprec : prec.toNat < 32)
    (hwidth : flags.zeropad = true → flags.left = false → width.toNat ≤ 32)
    (hsign : signText negative flags = [] ∨ value < 10 ^ 31 ∧ base = 10) :
    strtol base (numberText value negative base prec width flags) =
      if negative then -((value % base ^ ntoaBufferSize : ℕ) : ℤ) else (value % base ^ ntoaBufferSize : ℕ) := by
  have hds : ∀ c ∈ numberDigits value base flags, isXdigit c = true := by
    intro c hc
    rw [numberDigits] at hc
    split_ifs at hc
    · exact isXdigit_digits _ hbase hbase' _ _ c hc
    · cases hc
  have hvalue : readNat base (numberDigits value base flags).reverse = value % base ^ ntoaBufferSize := by
    rw [numberDigits]
    split_ifs with hwritten
    · exact readNat_digits _ hbase hbase' _ _
    · rw [not_or, not_not] at hwritten
      rw [hwritten.2, Nat.zero_mod]
      rfl
  have hlen : (numberDigits value base flags).length + (signText negative flags).length ≤ ntoaBufferSize := by
    rcases hsign with hnone | ⟨hlt, rfl⟩
    · rw [hnone]
      exact length_numberDigits value base flags
    · have hone := length_signText negative flags
      have hfew : (numberDigits value 10 flags).length ≤ 31 := by
        rw [numberDigits]
        split_ifs
        · rw [digits_eq _ (by norm_num), List.length_map, List.length_take]
          apply (Nat.min_le_right _ _).trans
          split_ifs
          · decide
          · exact (Nat.digits_length_le_iff (by norm_num) value).mpr hlt
        · exact Nat.zero_le 31
      change _ ≤ 32
      omega
  have hall : ∀ zeros, ∀ c ∈ List.replicate zeros (ch '0') ++ (numberDigits value base flags).reverse,
      isXdigit c = true := by
    intro zeros c hc
    rcases List.mem_append.mp hc with hzero | hdigit
    · rw [List.eq_of_mem_replicate hzero]
      decide
    · exact hds c (List.mem_reverse.mp hdigit)
  rw [numberText_eq hhash (zerosOf_room hlen hprec hwidth), strtol_fieldText (hall _), readNat_zeros, hvalue]

/-! ## Integers -/

/-- The integer that is given to a directive. -/
def integerValue (args : ℕ → Word) (signed : Bool) (flags : Flags) (va : ℕ) : ℤ :=
  let value {w : ℕ} (v : BitVec w) : ℤ := if signed then v.toInt else v.toNat
  if flags.longLong then value (vaLongLong args va)
  else if flags.long then value (vaLong args va)
  else if flags.char then value ((args va).setWidth 8)
  else value (args va)

theorem toNat_magnitude {w : ℕ} (v : BitVec w) : ((magnitude v).toNat : ℤ) = |v.toInt| := by
  have hlt := v.isLt
  rw [magnitude]
  split_ifs with hpos
  · rw [abs_of_pos hpos]
    rw [BitVec.toInt_eq_toNat_cond] at hpos ⊢
    split_ifs at hpos ⊢
    · rfl
    · omega
  · rw [abs_of_nonpos (not_lt.mp hpos)]
    rw [BitVec.toInt_eq_toNat_cond] at hpos ⊢
    rw [BitVec.toNat_sub, show (0 : BitVec w).toNat = 0 from rfl, Nat.add_zero]
    split_ifs at hpos ⊢
    · have hzero : v.toNat = 0 := by omega
      simp [hzero]
    · rw [Nat.mod_eq_of_lt (by omega)]
      omega

/-- The sign and the magnitude of an integer. -/
theorem sign_magnitude {w : ℕ} (v : BitVec w) :
    (if decide (v.toInt < 0) = true then -((magnitude v).toNat : ℤ) else (magnitude v).toNat) = v.toInt := by
  rw [toNat_magnitude]
  by_cases hneg : v.toInt < 0
  · rw [if_pos (decide_eq_true hneg), abs_of_neg hneg, neg_neg]
  · rw [if_neg (by simpa using hneg), abs_of_nonneg (not_lt.mp hneg)]

/-- The argument of an integer is its sign and its magnitude. -/
theorem integerArg_value (args : ℕ → Word) (signed : Bool) (flags : Flags) (va : ℕ) :
    (if (integerArg args signed flags va).1.2 then -((integerArg args signed flags va).1.1 : ℤ)
      else (integerArg args signed flags va).1.1) = integerValue args signed flags va := by
  have hchar : (((args va).setWidth 8).signExtend 16).toInt = ((args va).setWidth 8).toInt :=
    BitVec.toInt_signExtend_of_le (by norm_num)
  have hbyte : (((args va).setWidth 8).setWidth 16).toNat = ((args va).setWidth 8).toNat :=
    BitVec.toNat_setWidth_of_le (by norm_num)
  rw [integerArg, integerValue]
  cases flags.longLong with
  | true =>
    cases signed with
    | false => rfl
    | true => exact sign_magnitude (vaLongLong args va)
  | false =>
    cases flags.long with
    | true =>
      cases signed with
      | false => rfl
      | true => exact sign_magnitude (vaLong args va)
    | false =>
      cases flags.char with
      | true =>
        cases signed with
        | false => exact congrArg Nat.cast hbyte
        | true => exact (sign_magnitude (((args va).setWidth 8).signExtend 16)).trans hchar
      | false =>
        cases signed with
        | false => rfl
        | true => exact sign_magnitude (args va)

theorem integerArg_lt (args : ℕ → Word) (signed : Bool) (flags : Flags) (va : ℕ) :
    (integerArg args signed flags va).1.1 < 2 ^ 64 := by
  have hlt : ∀ {w : ℕ} (v : BitVec w), w ≤ 64 → v.toNat < 2 ^ 64 :=
    fun v hw => v.isLt.trans_le (Nat.pow_le_pow_right (by norm_num) hw)
  rw [integerArg]
  dsimp only
  split_ifs
  · exact hlt _ (by norm_num)
  · exact hlt _ (by norm_num)
  · exact hlt _ (by norm_num)
  · exact hlt _ (by norm_num)
  · exact hlt _ (by norm_num)
  · exact hlt _ (by norm_num)
  · exact hlt _ (by norm_num)
  · exact hlt _ (by norm_num)

theorem integerArg_unsigned (args : ℕ → Word) (flags : Flags) (va : ℕ) :
    (integerArg args false flags va).1.2 = false := by
  rw [integerArg]
  simp only [Bool.false_eq_true, if_false]
  split_ifs
  · rfl
  · rfl
  · rfl
  · rfl

/-- The flags that a specifier admits. -/
structure Admitted (signed : Bool) (flags flags' : Flags) : Prop where
  length : flags'.longLong = flags.longLong ∧ flags'.long = flags.long ∧ flags'.char = flags.char
  left : flags'.left = flags.left
  hash : flags.hash = false → flags'.hash = false
  zeropad : flags'.zeropad = true → flags.zeropad = true
  sign : signed = false → flags'.plus = false ∧ flags'.space = false

/-- A precision takes the zeros away. -/
def dropZeros (flags : Flags) : Flags := if flags.precision then { flags with zeropad := false } else flags

theorem Admitted.dropZeros {signed : Bool} {flags flags' : Flags} (h : Admitted signed flags flags') :
    Admitted signed flags (Libc.dropZeros flags') := by
  rw [Libc.dropZeros]
  split_ifs
  · exact ⟨h.length, h.left, h.hash, fun hzero => absurd hzero (by simp), h.sign⟩
  · exact h

/-- The base of a specifier. -/
theorem integerFlags_cases {spec : Byte} (hspec : spec ∈ integerSpecs) (flags : Flags) :
    ∃ base flags', integerFlags spec flags = (base, flags') ∧ Admitted (spec = ch 'i' ∨ spec = ch 'd') flags flags' ∧
      (base.toNat = 2 ∧ spec = ch 'b' ∨ 8 ≤ base.toNat ∧ base.toNat ≤ 16 ∧ spec ≠ ch 'b') ∧
      ((spec = ch 'i' ∨ spec = ch 'd') → base.toNat = 10) := by
  have hsigned : Admitted true flags { flags with hash := false } :=
    ⟨⟨rfl, rfl, rfl⟩, rfl, fun _ => rfl, id, fun h => absurd h (by simp)⟩
  have hunsigned : Admitted false flags { flags with plus := false, space := false } :=
    ⟨⟨rfl, rfl, rfl⟩, rfl, id, id, fun _ => ⟨rfl, rfl⟩⟩
  simp only [integerSpecs, List.mem_cons, List.not_mem_nil, or_false] at hspec
  rcases hspec with rfl | rfl | rfl | rfl | rfl | rfl | rfl
  · exact ⟨10, dropZeros { flags with hash := false }, rfl, hsigned.dropZeros, .inr (by decide), fun _ => rfl⟩
  · exact ⟨10, dropZeros { flags with hash := false }, rfl, hsigned.dropZeros, .inr (by decide), fun _ => rfl⟩
  · have hnone : Admitted false flags { flags with hash := false, plus := false, space := false } :=
      ⟨⟨rfl, rfl, rfl⟩, rfl, fun _ => rfl, id, fun _ => ⟨rfl, rfl⟩⟩
    exact ⟨10, dropZeros { flags with hash := false, plus := false, space := false }, rfl, hnone.dropZeros,
      .inr (by decide), by decide⟩
  · exact ⟨16, dropZeros { flags with plus := false, space := false }, rfl, hunsigned.dropZeros, .inr (by decide),
      by decide⟩
  · have hupper : Admitted false flags { flags with uppercase := true, plus := false, space := false } :=
      ⟨⟨rfl, rfl, rfl⟩, rfl, id, id, fun _ => ⟨rfl, rfl⟩⟩
    exact ⟨16, dropZeros { flags with uppercase := true, plus := false, space := false }, rfl, hupper.dropZeros,
      .inr (by decide), by decide⟩
  · exact ⟨8, dropZeros { flags with plus := false, space := false }, rfl, hunsigned.dropZeros, .inr (by decide),
      by decide⟩
  · exact ⟨2, dropZeros { flags with plus := false, space := false }, rfl, hunsigned.dropZeros, .inl (by decide),
      by decide⟩

theorem integerArg_admitted {args : ℕ → Word} {signed : Bool} {flags flags' : Flags} {b : Bool} {va : ℕ}
    (h : Admitted b flags flags') : integerArg args signed flags' va = integerArg args signed flags va := by
  rw [integerArg, integerArg, h.length.1, h.length.2.1, h.length.2.2]

/-- **Integers are read back.** What a directive for an integer writes, with any flags but `#`, a precision of less than
32 and, if it is filled with zeros, a width of at most 32, is read back as the integer that is given to it; of a binary
one, the lower 32 digits. -/
theorem integer_reads_back (mem : Word → Byte) (regs : Regs) (args : ℕ → Word) {spec : Byte}
    (hspec : spec ∈ integerSpecs) {flags : Flags} (hhash : flags.hash = false) {width precision : Word}
    (hprec : precision.toNat < 32) (hwidth : flags.zeropad = true → flags.left = false → width.toNat ≤ 32) (va : ℕ) :
    ∃ text va', convertText mem regs args spec flags width precision va = some (text, va') ∧
      strtol (integerFlags spec flags).1.toNat text =
        if spec = ch 'b' then integerValue args false flags va % 2 ^ 32
        else integerValue args (spec = ch 'i' ∨ spec = ch 'd') flags va := by
  refine ⟨(integerText args spec flags width precision va).1, (integerText args spec flags width precision va).2,
    if_pos hspec, ?_⟩
  obtain ⟨base, flags', hflags, hadmitted, hbase, hten⟩ := integerFlags_cases hspec flags
  have hvalue := integerArg_value args (spec = ch 'i' ∨ spec = ch 'd') flags va
  have hlt := integerArg_lt args (spec = ch 'i' ∨ spec = ch 'd') flags va
  have hunsigned : decide (spec = ch 'i' ∨ spec = ch 'd') = false →
      (integerArg args (spec = ch 'i' ∨ spec = ch 'd') flags va).1.2 = false := by
    intro h
    rw [h]
    exact integerArg_unsigned args flags va
  rw [integerText, hflags]
  dsimp only
  rw [integerArg_admitted hadmitted]
  generalize hsigned : decide (spec = ch 'i' ∨ spec = ch 'd') = signed at *
  rcases harg : integerArg args signed flags va with ⟨⟨value, negative⟩, va'⟩
  rw [harg] at hvalue hlt hunsigned
  dsimp only at hvalue hlt hunsigned ⊢
  have hbounds : 2 ≤ base.toNat ∧ base.toNat ≤ 16 := by omega
  have hsign : signText negative flags' = [] ∨ value < 10 ^ 31 ∧ base.toNat = 10 := by
    cases signed with
    | true => exact .inr ⟨hlt.trans (by norm_num), hten (of_decide_eq_true hsigned)⟩
    | false =>
      obtain ⟨hplus, hspace⟩ := hadmitted.sign rfl
      exact .inl (by simp [signText, hunsigned rfl, hplus, hspace])
  rw [strtol_numberText (hadmitted.hash hhash) hbounds.1 hbounds.2 hprec
    (fun hzero hleft => hwidth (hadmitted.zeropad hzero) (hadmitted.left ▸ hleft)) hsign]
  rcases hbase with ⟨htwo, rfl⟩ | ⟨height, -, hspec'⟩
  · -- a binary number, which is not signed
    obtain rfl : signed = false := hsigned.symm.trans (by decide)
    rw [hunsigned rfl, if_neg (by simp)] at hvalue
    rw [hunsigned rfl, if_neg (by simp), if_pos rfl, htwo, ← hvalue]
    rfl
  · have hfits : value < base.toNat ^ ntoaBufferSize :=
      hlt.trans_le ((by norm_num [ntoaBufferSize] : 2 ^ 64 ≤ 8 ^ ntoaBufferSize).trans
        (Nat.pow_le_pow_left height _))
    rw [if_neg hspec', Nat.mod_eq_of_lt hfits]
    exact hvalue

/-- `%ld` of -5. -/
theorem integer_reads_back_long :
    ∃ text va', convertText (fun _ => 0) ⟨0, 0, 0, 0, 0, 0, false, []⟩ (fun n => if n = 0 then 0xFFFB else 0xFFFF)
        (ch 'd') { long := true } 0 0 0 = some (text, va') ∧ strtol 10 text = -5 :=
  integer_reads_back (fun _ => 0) ⟨0, 0, 0, 0, 0, 0, false, []⟩ (fun n => if n = 0 then 0xFFFB else 0xFFFF)
    (by decide) rfl (by decide) (fun hzero => absurd hzero (by decide)) 0

end I80k.Libc

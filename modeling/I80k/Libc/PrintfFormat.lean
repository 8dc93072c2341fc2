import I80k.Libc.PrintfText

/-!
# Formats

A format is a list of characters and directives, and its text is that of each of them, one behind the other. A format
is written as a string, and the functions read it back: whatever is behind its zero byte does not matter.

But if the string ends in the middle of a directive, its zero byte is taken for the specifier. It goes to the output, and
what is behind it in memory is read as a format, with the arguments that are next on the stack.

## Main definitions

* `Directive`, `Item`: directives, and what formats are made of
* `Directive.fields`: what a directive says
* `Item.render`: a format as a string
* `itemsText`: the text of a format

## Main results

* `directive_render`: the fields of a directive are read back
* `formatText_append`: a format in front of another one
* `printf_render`: a format that is written as a string
* `printf_runs_past_end`: a string that ends in the middle of a directive
-/

namespace I80k.Libc

open StringInstr (Byte Regs)

/-! ## Directives -/

/-- The characters of the flags. -/
def flagChars : List Byte := [ch '0', ch '-', ch '+', ch ' ', ch '#']

/-- The characters of the lengths. -/
def lengthChars : List Byte := [ch 'l', ch 'h', ch 't', ch 'j', ch 'z']

/-- A character that neither is a flag, nor begins a width or a precision. -/
structure Plain (c : Byte) : Prop where
  flag : c ∉ flagChars
  digit : isDigit c = false
  star : c ≠ ch '*'
  point : c ≠ ch '.'

/-- A number in a directive: it is not there, or written out, or an argument. -/
inductive Amount
  | absent
  | number (digits : List Byte)
  | star

/-- The length of an argument. -/
inductive Length
  | absent
  | l
  | ll
  | h
  | hh
  | t
  | j
  | z

/-- A directive. A width that is written out does not begin with a zero, which is a flag; a precision may have no digits
behind its point. -/
structure Directive where
  flags : List Byte
  width : Amount
  precision : Amount
  length : Length
  spec : Byte
  flags_mem : ∀ c ∈ flags, c ∈ flagChars
  width_digits : ∀ digits, width = .number digits →
    (∃ c cs, digits = c :: cs ∧ c ∉ flagChars) ∧ ∀ c ∈ digits, isDigit c = true
  precision_digits : ∀ digits, precision = .number digits → ∀ c ∈ digits, isDigit c = true
  spec_plain : Plain spec ∧ spec ∉ lengthChars

/-- What formats are made of. -/
inductive Item
  | char (c : Byte) (hc : c ≠ 0 ∧ c ≠ ch '%')
  | directive (d : Directive) (hd : d.spec ≠ 0)

/-! ### As strings -/

def Amount.render : Amount → List Byte
  | .absent => []
  | .number digits => digits
  | .star => [ch '*']

def Amount.renderPrecision : Amount → List Byte
  | .absent => []
  | .number digits => ch '.' :: digits
  | .star => [ch '.', ch '*']

def Length.render : Length → List Byte
  | .absent => []
  | .l => [ch 'l']
  | .ll => [ch 'l', ch 'l']
  | .h => [ch 'h']
  | .hh => [ch 'h', ch 'h']
  | .t => [ch 't']
  | .j => [ch 'j']
  | .z => [ch 'z']

/-- The fields of a directive, between its percent sign and its specifier. -/
def Directive.renderFields (d : Directive) : List Byte :=
  d.flags ++ (d.width.render ++ (d.precision.renderPrecision ++ d.length.render))

def Item.render : Item → List Byte
  | .char c _ => [c]
  | .directive d _ => ch '%' :: (d.renderFields ++ [d.spec])

/-! ### What they say -/

/-- A flag. -/
def setFlag (flags : Flags) (c : Byte) : Flags :=
  if c = ch '0' then { flags with zeropad := true }
  else if c = ch '-' then { flags with left := true }
  else if c = ch '+' then { flags with plus := true }
  else if c = ch ' ' then { flags with space := true }
  else if c = ch '#' then { flags with hash := true }
  else flags

/-- The value of digits. -/
def digitsValue (digits : List Byte) : Word := digits.foldl (fun i c => i * 10 + (c - ch '0').setWidth 16) 0

section Fields

variable (args : ℕ → Word)

/-- The width, the flags, and the next argument. -/
def Amount.width (flags : Flags) (va : ℕ) : Amount → Word × Flags × ℕ
  | .absent => (0, flags, va)
  | .number digits => (digitsValue digits, flags, va)
  | .star => if (args va).toInt < 0 then (-args va, { flags with left := true }, va + 1) else (args va, flags, va + 1)

/-- The precision, the flags, and the next argument. -/
def Amount.precision (flags : Flags) (va : ℕ) : Amount → Word × Flags × ℕ
  | .absent => (0, flags, va)
  | .number digits => (digitsValue digits, { flags with precision := true }, va)
  | .star => (if 0 < (args va).toInt then args va else 0, { flags with precision := true }, va + 1)

def Length.set (flags : Flags) : Length → Flags
  | .absent => flags
  | .l => { flags with long := true }
  | .ll => { flags with long := true, longLong := true }
  | .h => { flags with short := true }
  | .hh => { flags with short := true, char := true }
  | .t | .z => { flags with longLong := true }
  | .j => { flags with long := true }

/-- What a directive says: the width, the precision, the flags, and the next argument. -/
def Directive.fields (d : Directive) (va : ℕ) : Word × Word × Flags × ℕ :=
  let flags := d.flags.foldl setFlag {}
  let (width, flags, va) := d.width.width args flags va
  let (precision, flags, va) := d.precision.precision args flags va
  (width, precision, d.length.set flags, va)

end Fields

/-! ## Fields are read back -/

section Read

variable {args : ℕ → Word} {flags : Flags} {va : ℕ}

theorem flagsField_cons {c : Byte} (hc : c ∈ flagChars) (format : List Byte) :
    flagsField flags (c :: format) = flagsField (setFlag flags c) format := by
  rw [flagsField, setFlag]
  simp only [flagChars, List.mem_cons, List.not_mem_nil, or_false] at hc
  split_ifs with h1 h2 h3 h4 h5
  · rfl
  · rfl
  · rfl
  · rfl
  · rfl
  · rcases hc with h | h | h | h | h
    · exact absurd h h1
    · exact absurd h h2
    · exact absurd h h3
    · exact absurd h h4
    · exact absurd h h5

theorem flagsField_stop {c : Byte} (hc : c ∉ flagChars) (format : List Byte) :
    flagsField flags (c :: format) = some (flags, c :: format) := by
  simp only [flagChars, List.mem_cons, List.not_mem_nil, or_false, not_or] at hc
  obtain ⟨h1, h2, h3, h4, h5⟩ := hc
  rw [flagsField, if_neg h1, if_neg h2, if_neg h3, if_neg h4, if_neg h5]

theorem flagsField_append {fs : List Byte} (hfs : ∀ c ∈ fs, c ∈ flagChars) {c : Byte} (hc : c ∉ flagChars)
    (format : List Byte) :
    flagsField flags (fs ++ c :: format) = some (fs.foldl setFlag flags, c :: format) := by
  induction fs generalizing flags with
  | nil => exact flagsField_stop hc format
  | cons f fs ih =>
    rw [List.cons_append, flagsField_cons (hfs f List.mem_cons_self)]
    exact ih fun c hc => hfs c (List.mem_cons_of_mem f hc)

theorem atoi_append {ds : List Byte} (hds : ∀ c ∈ ds, isDigit c = true) {c : Byte} (hc : isDigit c = false)
    (i : Word) (format : List Byte) :
    atoi i (ds ++ c :: format) = some (ds.foldl (fun i c => i * 10 + (c - ch '0').setWidth 16) i, c :: format) := by
  induction ds generalizing i with
  | nil => rw [List.nil_append, atoi, if_neg (by simp [hc])]; rfl
  | cons d ds ih =>
    rw [List.cons_append, atoi, if_pos (hds d List.mem_cons_self)]
    exact ih (fun c hc => hds c (List.mem_cons_of_mem d hc)) _

theorem widthField_render {width : Amount}
    (hwidth : ∀ digits, width = .number digits →
      (∃ c cs, digits = c :: cs ∧ c ∉ flagChars) ∧ ∀ c ∈ digits, isDigit c = true)
    {c : Byte} (hdigit : isDigit c = false) (hstar : c ≠ ch '*') (format : List Byte) :
    widthField args flags va (width.render ++ c :: format) = some (width.width args flags va, c :: format) := by
  cases width with
  | absent =>
    rw [Amount.render, List.nil_append, widthField, if_neg (by simp [hdigit]), if_neg hstar]
    rfl
  | number digits =>
    obtain ⟨⟨d, ds, rfl, -⟩, hdigits⟩ := hwidth digits rfl
    have hatoi := atoi_append hdigits hdigit 0 format
    rw [Amount.render, List.cons_append, widthField, if_pos (hdigits d List.mem_cons_self), ← List.cons_append, hatoi]
    rfl
  | star =>
    rw [Amount.render, List.singleton_append, widthField, if_neg (by decide), if_pos rfl]
    dsimp only
    rw [Amount.width]
    split_ifs
    · rfl
    · rfl

theorem precisionField_render {precision : Amount}
    (hprecision : ∀ digits, precision = .number digits → ∀ c ∈ digits, isDigit c = true)
    {c : Byte} (hc : Plain c) (format : List Byte) :
    precisionField args flags va (precision.renderPrecision ++ c :: format) =
      some (precision.precision args flags va, c :: format) := by
  cases precision with
  | absent =>
    rw [Amount.renderPrecision, List.nil_append, precisionField, if_neg hc.point]
    rfl
  | number digits =>
    have hvalue : precisionValue args va (digits ++ c :: format) = some ((digitsValue digits, va), c :: format) := by
      have hdigits := hprecision digits rfl
      cases digits with
      | nil =>
        rw [List.nil_append, precisionValue, if_neg (by simp [hc.digit]), if_neg hc.star]
        rfl
      | cons d ds =>
        have hatoi := atoi_append hdigits hc.digit 0 format
        rw [List.cons_append, precisionValue, if_pos (hdigits d List.mem_cons_self), ← List.cons_append, hatoi]
        rfl
    rw [Amount.renderPrecision, List.cons_append, precisionField, if_pos rfl, hvalue]
    rfl
  | star =>
    rw [Amount.renderPrecision, List.cons_append, precisionField, if_pos rfl, List.singleton_append, precisionValue,
      if_neg (by decide), if_pos rfl]
    rfl

theorem lengthField_render (length : Length) {c : Byte} (hc : c ∉ lengthChars) (format : List Byte) :
    lengthField flags (length.render ++ c :: format) = some (length.set flags, c :: format) := by
  simp only [lengthChars, List.mem_cons, List.not_mem_nil, or_false, not_or] at hc
  obtain ⟨hl, hh, ht, hj, hz⟩ := hc
  cases length with
  | absent =>
    rw [Length.render, List.nil_append, lengthField, if_neg hl, if_neg hh, if_neg (not_or.mpr ⟨ht, hz⟩), if_neg hj]
    rfl
  | l =>
    rw [Length.render, List.singleton_append, lengthField, if_pos rfl, doubled, if_neg hl]
    rfl
  | h =>
    rw [Length.render, List.singleton_append, lengthField, if_neg (by decide), if_pos rfl, doubled, if_neg hh]
    rfl
  | ll => rfl
  | hh => rfl
  | t => rfl
  | j => rfl
  | z => rfl

/-- The character behind a precision. -/
theorem length_head (length : Length) {spec : Byte} (hspec : Plain spec) (format : List Byte) :
    ∃ c cs, length.render ++ spec :: format = c :: cs ∧ Plain c := by
  have hl : Plain (ch 'l') := ⟨by decide, by decide, by decide, by decide⟩
  have hh : Plain (ch 'h') := ⟨by decide, by decide, by decide, by decide⟩
  cases length with
  | absent => exact ⟨spec, format, rfl, hspec⟩
  | l => exact ⟨_, _, rfl, hl⟩
  | ll => exact ⟨_, _, rfl, hl⟩
  | h => exact ⟨_, _, rfl, hh⟩
  | hh => exact ⟨_, _, rfl, hh⟩
  | t => exact ⟨_, _, rfl, by decide, by decide, by decide, by decide⟩
  | j => exact ⟨_, _, rfl, by decide, by decide, by decide, by decide⟩
  | z => exact ⟨_, _, rfl, by decide, by decide, by decide, by decide⟩

/-- The character behind a width. -/
theorem precision_head (precision : Amount) {c : Byte} (hc : Plain c) (format : List Byte) :
    ∃ d ds, precision.renderPrecision ++ c :: format = d :: ds ∧ d ∉ flagChars ∧ isDigit d = false ∧ d ≠ ch '*' := by
  cases precision with
  | absent => exact ⟨c, format, rfl, hc.flag, hc.digit, hc.star⟩
  | number digits => exact ⟨ch '.', _, rfl, by decide, by decide, by decide⟩
  | star => exact ⟨ch '.', _, rfl, by decide, by decide, by decide⟩

/-- The character behind the flags. -/
theorem width_head {width : Amount}
    (hwidth : ∀ digits, width = .number digits →
      (∃ c cs, digits = c :: cs ∧ c ∉ flagChars) ∧ ∀ c ∈ digits, isDigit c = true)
    {c : Byte} (hc : c ∉ flagChars) (format : List Byte) :
    ∃ d ds, width.render ++ c :: format = d :: ds ∧ d ∉ flagChars := by
  cases width with
  | absent => exact ⟨c, format, rfl, hc⟩
  | number digits =>
    obtain ⟨⟨d, ds, rfl, hd⟩, -⟩ := hwidth digits rfl
    exact ⟨d, _, rfl, hd⟩
  | star => exact ⟨ch '*', _, rfl, by decide⟩

/-- **The fields of a directive** are read back. -/
theorem directive_render (d : Directive) (format : List Byte) :
    directive args va (d.renderFields ++ d.spec :: format) = some (d.fields args va, d.spec :: format) := by
  obtain ⟨c, cs, hlength, hc⟩ := length_head d.length d.spec_plain.1 format
  obtain ⟨p, ps, hprecision, hp, hdigit, hstar⟩ := precision_head d.precision hc cs
  obtain ⟨w, ws, hwidth, hw⟩ := width_head d.width_digits hp ps
  have hformat : d.renderFields ++ d.spec :: format = d.flags ++ w :: ws := by
    rw [Directive.renderFields, List.append_assoc, List.append_assoc, List.append_assoc, hlength, hprecision, hwidth]
  rw [hformat, directive, flagsField_append d.flags_mem hw, ← hwidth]
  simp only [Option.bind_eq_bind, Option.bind_some]
  rw [widthField_render d.width_digits hdigit hstar, ← hprecision]
  simp only [Option.bind_some]
  rw [precisionField_render d.precision_digits hc, ← hlength]
  simp only [Option.bind_some]
  rw [lengthField_render d.length d.spec_plain.2]
  rfl

end Read

/-! ## Formats -/

section Text

variable (mem : Word → Byte) (regs : Regs) (args : ℕ → Word)

/-- The text of a directive, and the next argument. -/
def Directive.text (d : Directive) (va : ℕ) : Option (List Byte × ℕ) :=
  let (width, precision, flags, va) := d.fields args va
  convertText mem regs args d.spec flags width precision va

/-- The text of a format, and the next argument. -/
def itemsText : List Item → ℕ → Option (List Byte × ℕ)
  | [], va => some ([], va)
  | .char c _ :: items, va => (itemsText items va).map fun (text, va) => (c :: text, va)
  | .directive d _ :: items, va => do
    let (text, va) ← d.text mem regs args va
    (itemsText items va).map fun (rest, va) => (text ++ rest, va)

/-- A format as a string, without its zero byte. -/
def renderItems (items : List Item) : List Byte := items.flatMap Item.render

/-- A directive in front of a format. -/
theorem formatText_directive (d : Directive) (turns : ℕ) (format : List Byte) (va : ℕ) :
    formatText mem regs args (turns + 1) (ch '%' :: (d.renderFields ++ d.spec :: format)) va =
      (d.text mem regs args va).bind fun (text, va) => (formatText mem regs args turns format va).map (text ++ ·) := by
  rw [formatText, if_neg (by decide), if_neg (by simp), directive_render]
  rfl

/-- **A format in front of another one**: its text comes first, and what it has left of the arguments is for the other
one. -/
theorem formatText_append (items : List Item) (turns : ℕ) (format : List Byte) (va : ℕ) :
    formatText mem regs args (turns + items.length) (renderItems items ++ format) va =
      (itemsText mem regs args items va).bind fun (text, va) =>
        (formatText mem regs args turns format va).map (text ++ ·) := by
  induction items generalizing va with
  | nil =>
    change formatText mem regs args turns format va = (formatText mem regs args turns format va).map ([] ++ ·)
    simp
  | cons item items ih =>
    cases item with
    | char c hc =>
      change formatText mem regs args (turns + items.length + 1) (c :: (renderItems items ++ format)) va = _
      rw [formatText, if_neg hc.1, if_pos hc.2, ih, itemsText]
      rcases itemsText mem regs args items va with _ | ⟨text, va'⟩
      · rfl
      · simp [Option.map_map, Function.comp_def]
    | directive d hd =>
      have hrender : renderItems (.directive d hd :: items) ++ format =
          ch '%' :: (d.renderFields ++ d.spec :: (renderItems items ++ format)) := by
        simp [renderItems, Item.render]
      rw [hrender, List.length_cons, ← Nat.add_assoc, formatText_directive, itemsText]
      rcases d.text mem regs args va with _ | ⟨text, va'⟩
      · rfl
      · change (formatText mem regs args (turns + items.length) (renderItems items ++ format) va').map (text ++ ·) =
          ((itemsText mem regs args items va').map _).bind _
        rw [ih]
        rcases itemsText mem regs args items va' with _ | ⟨rest, va''⟩
        · rfl
        · simp [Option.map_map, Function.comp_def]

end Text

/-! ### What is left of a format gets shorter -/

section Length

variable {args : ℕ → Word} {flags : Flags} {va : ℕ}

theorem flagsField_length {flags flags' : Flags} {format rest : List Byte}
    (h : flagsField flags format = some (flags', rest)) : rest.length ≤ format.length := by
  induction format generalizing flags with
  | nil => cases h
  | cons c format ih =>
    by_cases hc : c ∈ flagChars
    · rw [flagsField_cons hc] at h
      exact (ih h).trans (Nat.le_succ _)
    · rw [flagsField_stop hc] at h
      cases h
      exact Nat.le_refl _

theorem atoi_length {i value : Word} {format rest : List Byte} (h : atoi i format = some (value, rest)) :
    rest.length ≤ format.length := by
  induction format generalizing i with
  | nil => cases h
  | cons c format ih =>
    rw [atoi] at h
    split_ifs at h
    · exact (ih h).trans (Nat.le_succ _)
    · cases h
      exact Nat.le_refl _

theorem widthField_length {r : Word × Flags × ℕ} {format rest : List Byte}
    (h : widthField args flags va format = some (r, rest)) : rest.length ≤ format.length := by
  cases format with
  | nil => cases h
  | cons c format =>
    rw [widthField] at h
    split_ifs at h
    · obtain ⟨⟨value, rest'⟩, hatoi, heq⟩ := Option.map_eq_some_iff.mp h
      cases heq
      exact atoi_length hatoi
    · dsimp only at h
      split_ifs at h
      · cases h
        exact Nat.le_succ _
      · cases h
        exact Nat.le_succ _
    · cases h
      exact Nat.le_refl _

theorem precisionValue_length {r : Word × ℕ} {format rest : List Byte}
    (h : precisionValue args va format = some (r, rest)) : rest.length ≤ format.length := by
  cases format with
  | nil => cases h
  | cons c format =>
    rw [precisionValue] at h
    split_ifs at h
    · obtain ⟨⟨value, rest'⟩, hatoi, heq⟩ := Option.map_eq_some_iff.mp h
      cases heq
      exact atoi_length hatoi
    · cases h
      exact Nat.le_succ _
    · cases h
      exact Nat.le_succ _
    · cases h
      exact Nat.le_refl _

theorem precisionField_length {r : Word × Flags × ℕ} {format rest : List Byte}
    (h : precisionField args flags va format = some (r, rest)) : rest.length ≤ format.length := by
  cases format with
  | nil => cases h
  | cons c format =>
    rw [precisionField] at h
    split_ifs at h
    · obtain ⟨⟨value, rest'⟩, hvalue, heq⟩ := Option.map_eq_some_iff.mp h
      cases heq
      exact (precisionValue_length hvalue).trans (Nat.le_succ _)
    · cases h
      exact Nat.le_refl _

theorem doubled_length {c : Byte} {once twice flags : Flags} {format rest : List Byte}
    (h : doubled c once twice format = some (flags, rest)) : rest.length ≤ format.length := by
  cases format with
  | nil => cases h
  | cons c format =>
    rw [doubled] at h
    split_ifs at h
    · cases h
      exact Nat.le_succ _
    · cases h
      exact Nat.le_refl _

theorem lengthField_length {flags flags' : Flags} {format rest : List Byte}
    (h : lengthField flags format = some (flags', rest)) : rest.length ≤ format.length := by
  cases format with
  | nil => cases h
  | cons c format =>
    rw [lengthField] at h
    split_ifs at h
    · exact (doubled_length h).trans (Nat.le_succ _)
    · exact (doubled_length h).trans (Nat.le_succ _)
    · cases h
      exact Nat.le_succ _
    · cases h
      exact Nat.le_succ _
    · cases h
      exact Nat.le_refl _

/-- What is left behind the fields of a directive is not longer than they were. -/
theorem directive_length {r : Word × Word × Flags × ℕ} {format rest : List Byte}
    (h : directive args va format = some (r, rest)) : rest.length ≤ format.length := by
  rw [directive] at h
  simp only [Option.bind_eq_bind, Option.bind_eq_some_iff] at h
  obtain ⟨⟨flags, f₁⟩, h₁, ⟨⟨width, flags', va'⟩, f₂⟩, h₂, ⟨⟨precision, flags'', va''⟩, f₃⟩, h₃, ⟨flags₄, f₄⟩, h₄, heq⟩ := h
  cases heq
  exact (lengthField_length h₄).trans ((precisionField_length h₃).trans ((widthField_length h₂).trans
    (flagsField_length h₁)))

end Length

section Text

variable (mem : Word → Byte) (regs : Regs) (args : ℕ → Word)

/-- **A format ends** within as many turns as it is long: more of them change nothing. -/
theorem formatText_congr {turns turns' : ℕ} {format : List Byte} (h : format.length ≤ turns)
    (h' : format.length ≤ turns') (va : ℕ) :
    formatText mem regs args turns format va = formatText mem regs args turns' format va := by
  have hnil : ∀ turns va, formatText mem regs args turns [] va = none := by
    intro turns va
    cases turns
    · rfl
    · rfl
  induction turns generalizing turns' format va with
  | zero =>
    obtain rfl := List.eq_nil_of_length_eq_zero (Nat.le_zero.mp h)
    rw [hnil, hnil]
  | succ turns ih =>
    cases format with
    | nil => rw [hnil, hnil]
    | cons c format =>
      cases turns' with
      | zero => exact absurd h' (Nat.not_succ_le_zero _)
      | succ turns' =>
        rw [List.length_cons, Nat.succ_le_succ_iff] at h h'
        rw [formatText, formatText]
        split_ifs
        · rfl
        · rw [ih h h']
        · rcases hfields : directive args va format with _ | ⟨⟨width, precision, flags, va'⟩, rest⟩
          · rfl
          · cases rest with
            | nil => rfl
            | cons spec rest =>
              have hlen := directive_length hfields
              rw [List.length_cons] at hlen
              have hrest : ∀ va, formatText mem regs args turns rest va = formatText mem regs args turns' rest va :=
                fun va => ih (by omega) (by omega) va
              simp only [hrest]

/-! ### As strings -/

theorem length_le_renderItems (items : List Item) : items.length ≤ (renderItems items).length := by
  induction items with
  | nil => exact Nat.le_refl _
  | cons item items ih =>
    have hitem : 1 ≤ item.render.length := by
      cases item with
      | char c hc => exact Nat.le_refl _
      | directive d hd => exact Nat.succ_le_succ (Nat.zero_le _)
    rw [renderItems, List.flatMap_cons, List.length_append, ← renderItems, List.length_cons]
    omega

/-- A format in front of another one, with as many turns as both are long. -/
theorem formatText_renderItems (items : List Item) (format : List Byte) (va : ℕ) :
    formatText mem regs args (renderItems items ++ format).length (renderItems items ++ format) va =
      (itemsText mem regs args items va).bind fun (text, va) =>
        (formatText mem regs args format.length format va).map (text ++ ·) := by
  have hlen := length_le_renderItems items
  have hturns : (renderItems items ++ format).length =
      (renderItems items).length - items.length + format.length + items.length := by
    rw [List.length_append]
    omega
  rw [hturns, formatText_append]
  rcases itemsText mem regs args items va with _ | ⟨text, va⟩
  · rfl
  · change (formatText mem regs args _ format va).map _ = (formatText mem regs args _ format va).map _
    rw [formatText_congr mem regs args (Nat.le_add_left _ _) (Nat.le_refl _)]

/-- **A format that is written as a string** is read back: `printf` writes the text of its items, without zero bytes,
whatever is behind the zero byte of the string. -/
theorem printf_render (items : List Item) (behind : List Byte) :
    printf mem regs args (renderItems items ++ 0 :: behind) =
      (itemsText mem regs args items 0).map fun (text, _) =>
        (text.filter (· ≠ 0), BitVec.ofNat 16 text.length) := by
  have hend : ∀ va, formatText mem regs args (0 :: behind).length (0 :: behind) va = some [] := fun va => rfl
  rw [printf_eq_formatText, formatText_renderItems]
  rcases itemsText mem regs args items 0 with _ | ⟨text, va⟩
  · rfl
  · rw [Option.bind_some]
    dsimp only
    rw [hend, Option.map_some, List.append_nil]
    rfl

/-- **A string that ends in the middle of a directive** does not end there: what is behind its zero byte is read as
another format, with the arguments that the directive leaves. -/
theorem printf_runs_past_end (items : List Item) (d : Directive) (hd : d.spec = 0) (behind : List Byte) :
    printf mem regs args (renderItems items ++ ch '%' :: (d.renderFields ++ 0 :: behind)) =
      (itemsText mem regs args items 0).bind fun (text, va) =>
        (formatText mem regs args behind.length behind (d.fields args va).2.2.2).map fun more =>
          ((text ++ more).filter (· ≠ 0), BitVec.ofNat 16 (text.length + 1 + more.length)) := by
  have hdirective : ∀ va,
      formatText mem regs args (ch '%' :: (d.renderFields ++ 0 :: behind)).length
        (ch '%' :: (d.renderFields ++ 0 :: behind)) va =
        (formatText mem regs args behind.length behind (d.fields args va).2.2.2).map (0 :: ·) := by
    intro va
    have htext : d.text mem regs args va = some ([0], (d.fields args va).2.2.2) := by
      rw [Directive.text, hd]
      rfl
    have hstring : d.renderFields ++ 0 :: behind = d.renderFields ++ d.spec :: behind := by rw [hd]
    have hbehind : behind.length ≤ (d.renderFields ++ 0 :: behind).length := by
      rw [List.length_append, List.length_cons]
      omega
    rw [List.length_cons, hstring, formatText_directive, htext, Option.bind_some, ← hstring]
    dsimp only
    rw [formatText_congr mem regs args hbehind (Nat.le_refl _)]
    rfl
  rw [printf_eq_formatText, formatText_renderItems]
  rcases itemsText mem regs args items 0 with _ | ⟨text, va⟩
  · rfl
  · rw [Option.bind_some, Option.bind_some]
    dsimp only
    rw [hdirective]
    rcases formatText mem regs args behind.length behind (d.fields args va).2.2.2 with _ | more
    · rfl
    · have hlen : (text ++ 0 :: more).length = text.length + 1 + more.length := by
        rw [List.length_append, List.length_cons]
        omega
      have hfilter : (text ++ 0 :: more).filter (· ≠ 0) = (text ++ more).filter (· ≠ 0) := by
        rw [List.filter_append, List.filter_append, List.filter_cons_of_neg (by simp)]
      simp only [Option.map_some, hlen, hfilter]

end Text

/-- `%l`, with an `x` behind the string: the `x` is printed, and two characters are counted. -/
theorem printf_runs_past_end_l :
    printf (fun _ => 0) ⟨0, 0, 0, 0, 0, 0, false, []⟩ (fun _ => 0) [ch '%', ch 'l', 0, ch 'x', 0] =
      some ([ch 'x'], 2) :=
  printf_runs_past_end (fun _ => 0) ⟨0, 0, 0, 0, 0, 0, false, []⟩ (fun _ => 0) []
    ⟨[], .absent, .absent, .l, 0, by simp, by simp, by simp, ⟨by decide, by decide, by decide, by decide⟩, by decide⟩
    rfl [ch 'x', 0]

end I80k.Libc

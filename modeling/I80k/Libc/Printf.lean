import I80k.Libc.Malloc
import I80k.Libc.Strings

/-!
# Formatted output

`_vsnprintf` of `libc/printf.c`, which all of `printf`, `snprintf` and `sprintf` are made of. Floating point numbers
are disabled; `int`, `size_t` and pointers have 16 bits, `long` has 32 and `long long` 64, so that the lengths `t` and
`z` are those of a `long long`, and `j` is that of a `long`.

The format is given by the bytes from its first one on, as many as there are in memory: what is behind its zero byte is
there to be read. A function has no result if it reads beyond them, or never ends. The arguments are the words on the
stack, from `va` on. Each character goes to `out`, with its index; `out` changes a state, which is the
buffer, or what `putchar` was called with.

## Main definitions

* `Flags`, `Out`: the flags of a directive; the state of the output
* `outRev`, `ntoaFormat`, `ntoa`: numbers
* `flagsField`, `widthField`, `precisionField`, `lengthField`: the fields of a directive
* `convert`: a specifier
* `vsnprintfLoop`, `vsnprintf`: a format
* `snprintf`, `printf`: the functions
-/

namespace I80k.Libc

open StringInstr (Byte Regs)

/-- A character. -/
def ch (c : Char) : Byte := BitVec.ofNat 8 c.toNat

/-- `FLAGS_ZEROPAD` and the others. -/
structure Flags where
  zeropad : Bool := false
  left : Bool := false
  plus : Bool := false
  space : Bool := false
  hash : Bool := false
  uppercase : Bool := false
  char : Bool := false
  short : Bool := false
  long : Bool := false
  longLong : Bool := false
  precision : Bool := false
  deriving DecidableEq

/-- `PRINTF_NTOA_BUFFER_SIZE`. -/
def ntoaBufferSize : ℕ := 32

/-- `_is_digit`. -/
def isDigit (c : Byte) : Bool := ch '0' ≤ c && c ≤ ch '9'

/-- `_atoi`, from a number that has been read: the number, and what is behind its digits. -/
def atoi (i : Word) : List Byte → Option (Word × List Byte)
  | [] => none
  | c :: format => if isDigit c then atoi (i * 10 + (c - ch '0').setWidth 16) format else some (i, c :: format)

/-! ## Output -/

/-- What `out` made of the characters so far, and the index of the next one. -/
structure Out (σ : Type) where
  state : σ
  idx : Word

section Output

variable {σ : Type} (out : Byte → Word → σ → σ)

/-- `out(c, buffer, idx++, maxlen)`. -/
def put (o : Out σ) (c : Byte) : Out σ := ⟨out c o.idx o.state, o.idx + 1⟩

/-- One character after another. -/
def puts (o : Out σ) (cs : List Byte) : Out σ := cs.foldl (put out) o

/-- Spaces, as many as `width` is more than `len`. -/
def spaces (width len : Word) : List Byte := List.replicate (width.toNat - len.toNat) (ch ' ')

/-- `_out_rev`, where `buf` has the first `len` characters of the buffer. -/
def outRev (o : Out σ) (buf : List Byte) (width : Word) (flags : Flags) : Out σ :=
  let startIdx := o.idx
  let o := if !flags.left && !flags.zeropad then puts out o (spaces width (BitVec.ofNat 16 buf.length)) else o
  let o := puts out o buf.reverse
  if flags.left then puts out o (spaces width (o.idx - startIdx)) else o

/-- Zeros, up to `n` characters or the end of the buffer. -/
def padZeros (buf : List Byte) (n : Word) : List Byte :=
  buf ++ List.replicate (min n.toNat ntoaBufferSize - buf.length) (ch '0')

/-- `buf[len++] = c`, if there is room. -/
def push (buf : List Byte) (c : Byte) : List Byte := if buf.length < ntoaBufferSize then buf ++ [c] else buf

/-- The width, less the place of a sign in front of zeros. -/
def signWidth (negative : Bool) (width : Word) (flags : Flags) : Word :=
  if width ≠ 0 ∧ flags.zeropad ∧ (negative ∨ flags.plus ∨ flags.space) then width - 1 else width

/-- The zeros in front of a number. -/
def leadingZeros (buf : List Byte) (prec width : Word) (flags : Flags) : List Byte :=
  let buf := padZeros buf prec
  if flags.zeropad then padZeros buf width else buf

/-- The places of zeros are those of the prefix. -/
def hashRoom (buf : List Byte) (base : ℕ) (prec width : Word) (flags : Flags) : List Byte :=
  if !flags.precision ∧ buf.length ≠ 0 ∧ (buf.length = prec.toNat ∨ buf.length = width.toNat) then
    let buf := buf.dropLast
    if buf.length ≠ 0 ∧ base = 16 then buf.dropLast else buf
  else buf

/-- `FLAGS_HASH`: the prefix of a base. -/
def hashPrefix (buf : List Byte) (base : ℕ) (prec width : Word) (flags : Flags) : List Byte :=
  let buf := hashRoom buf base prec width flags
  let buf :=
    if base = 16 ∧ !flags.uppercase then push buf (ch 'x')
    else if base = 16 ∧ flags.uppercase then push buf (ch 'X')
    else if base = 2 then push buf (ch 'b')
    else buf
  push buf (ch '0')

/-- The sign of a number. -/
def pushSign (buf : List Byte) (negative : Bool) (flags : Flags) : List Byte :=
  if negative then push buf (ch '-')
  else if flags.plus then push buf (ch '+')
  else if flags.space then push buf (ch ' ')
  else buf

/-- `_ntoa_format`. -/
def ntoaFormat (o : Out σ) (buf : List Byte) (negative : Bool) (base : ℕ) (prec width : Word) (flags : Flags) : Out σ :=
  let width := if !flags.left then signWidth negative width flags else width
  let buf := if !flags.left then leadingZeros buf prec width flags else buf
  let buf := if flags.hash then hashPrefix buf base prec width flags else buf
  outRev out o (pushSign buf negative flags) width flags

/-- A digit. -/
def digitChar (uppercase : Bool) (digit : ℕ) : Byte :=
  if digit < 10 then ch '0' + BitVec.ofNat 8 digit
  else (if uppercase then ch 'A' else ch 'a') + BitVec.ofNat 8 digit - 10

/-- The loop over the digits, the last one first, into a buffer that has room for that many. -/
def digits (uppercase : Bool) (base value : ℕ) : ℕ → List Byte
  | 0 => []
  | room + 1 =>
    digitChar uppercase (value % base) :: if value / base ≠ 0 then digits uppercase base (value / base) room else []

/-- `_ntoa_long` and `_ntoa_long_long`, which differ in the size of `value` and `base`. -/
def ntoa (o : Out σ) (value : ℕ) (negative : Bool) (base : ℕ) (prec width : Word) (flags : Flags) : Out σ :=
  let flags := if value = 0 then { flags with hash := false } else flags
  let buf := if !flags.precision ∨ value ≠ 0 then digits flags.uppercase base value ntoaBufferSize else []
  ntoaFormat out o buf negative base prec width flags

/-- `_ntoa_long`. -/
def ntoaLong (o : Out σ) (value : BitVec 32) (negative : Bool) (base prec width : Word) (flags : Flags) : Out σ :=
  ntoa out o value.toNat negative base.toNat prec width flags

/-- `_ntoa_long_long`. -/
def ntoaLongLong (o : Out σ) (value : BitVec 64) (negative : Bool) (base prec width : Word) (flags : Flags) : Out σ :=
  ntoa out o value.toNat negative base.toNat prec width flags

end Output

/-! ## The fields of a directive -/

/-- The flags. -/
def flagsField (flags : Flags) : List Byte → Option (Flags × List Byte)
  | [] => none
  | c :: format =>
    if c = ch '0' then flagsField { flags with zeropad := true } format
    else if c = ch '-' then flagsField { flags with left := true } format
    else if c = ch '+' then flagsField { flags with plus := true } format
    else if c = ch ' ' then flagsField { flags with space := true } format
    else if c = ch '#' then flagsField { flags with hash := true } format
    else some (flags, c :: format)

section Arguments

variable (args : ℕ → Word)

/-- `va_arg(va, long)`. -/
def vaLong (va : ℕ) : BitVec 32 := args (va + 1) ++ args va

/-- `va_arg(va, long long)`. -/
def vaLongLong (va : ℕ) : BitVec 64 := vaLong args (va + 2) ++ vaLong args va

/-- The width: its value, the flags, and the next argument. -/
def widthField (flags : Flags) (va : ℕ) : List Byte → Option ((Word × Flags × ℕ) × List Byte)
  | [] => none
  | c :: format =>
    if isDigit c then (atoi 0 (c :: format)).map fun (width, format) => ((width, flags, va), format)
    else if c = ch '*' then
      let w := args va
      if w.toInt < 0 then some ((-w, { flags with left := true }, va + 1), format)
      else some ((w, flags, va + 1), format)
    else some ((0, flags, va), c :: format)

/-- What is behind the point: the precision, and the next argument. -/
def precisionValue (va : ℕ) : List Byte → Option ((Word × ℕ) × List Byte)
  | [] => none
  | c :: format =>
    if isDigit c then (atoi 0 (c :: format)).map fun (precision, format) => ((precision, va), format)
    else if c = ch '*' then some ((if 0 < (args va).toInt then args va else 0, va + 1), format)
    else some ((0, va), c :: format)

/-- The precision: its value, the flags, and the next argument. -/
def precisionField (flags : Flags) (va : ℕ) : List Byte → Option ((Word × Flags × ℕ) × List Byte)
  | [] => none
  | c :: format =>
    if c = ch '.' then
      (precisionValue args va format).map fun ((precision, va), format) =>
        ((precision, { flags with precision := true }, va), format)
    else some ((0, flags, va), c :: format)

end Arguments

/-- A letter of a length, which may be doubled. -/
def doubled (c : Byte) (once twice : Flags) : List Byte → Option (Flags × List Byte)
  | [] => none
  | c' :: format => if c' = c then some (twice, format) else some (once, c' :: format)

/-- The length. Here `intmax_t` is as long as `long`, and `ptrdiff_t` and `size_t` are not. -/
def lengthField (flags : Flags) : List Byte → Option (Flags × List Byte)
  | [] => none
  | c :: format =>
    if c = ch 'l' then
      doubled (ch 'l') { flags with long := true } { flags with long := true, longLong := true } format
    else if c = ch 'h' then
      doubled (ch 'h') { flags with short := true } { flags with short := true, char := true } format
    else if c = ch 't' ∨ c = ch 'z' then some ({ flags with longLong := true }, format)
    else if c = ch 'j' then some ({ flags with long := true }, format)
    else some (flags, c :: format)

/-! ## Specifiers -/

/-- The specifiers of integers. -/
def integerSpecs : List Byte := [ch 'd', ch 'i', ch 'u', ch 'x', ch 'X', ch 'o', ch 'b']

instance (spec : Byte) : Decidable (spec ∈ integerSpecs) := inferInstanceAs (Decidable (_ ∈ _))

section Specifiers

variable {σ : Type} (out : Byte → Word → σ → σ) (mem : Word → Byte) (regs : Regs) (args : ℕ → Word)

/-- The magnitude of a number. -/
def magnitude {w : ℕ} (value : BitVec w) : BitVec w := if 0 < value.toInt then value else 0 - value

/-- The base of a specifier, and the flags that it admits. -/
def integerFlags (spec : Byte) (flags : Flags) : Word × Flags :=
  let (base, flags) : Word × Flags :=
    if spec = ch 'x' ∨ spec = ch 'X' then (16, flags)
    else if spec = ch 'o' then (8, flags)
    else if spec = ch 'b' then (2, flags)
    else (10, { flags with hash := false })
  let flags := if spec = ch 'X' then { flags with uppercase := true } else flags
  let flags := if spec ≠ ch 'i' ∧ spec ≠ ch 'd' then { flags with plus := false, space := false } else flags
  let flags := if flags.precision then { flags with zeropad := false } else flags
  (base, flags)

/-- An integer: the output, and the next argument. -/
def convertInteger (spec : Byte) (flags : Flags) (width precision : Word) (va : ℕ) (o : Out σ) : Out σ × ℕ :=
  let (base, flags) := integerFlags spec flags
  if spec = ch 'i' ∨ spec = ch 'd' then
    if flags.longLong then
      let value := vaLongLong args va
      (ntoaLongLong out o (magnitude value) (value.toInt < 0) base precision width flags, va + 4)
    else if flags.long then
      let value := vaLong args va
      (ntoaLong out o (magnitude value) (value.toInt < 0) base precision width flags, va + 2)
    else
      let value : Word := if flags.char then ((args va).setWidth 8).signExtend 16 else args va
      (ntoaLong out o ((magnitude value).setWidth 32) (value.toInt < 0) base precision width flags, va + 1)
  else if flags.longLong then (ntoaLongLong out o (vaLongLong args va) false base precision width flags, va + 4)
  else if flags.long then (ntoaLong out o (vaLong args va) false base precision width flags, va + 2)
  else
    let value : Word := if flags.char then ((args va).setWidth 8).setWidth 16 else args va
    (ntoaLong out o (value.setWidth 32) false base precision width flags, va + 1)

/-- `%c`. -/
def convertChar (flags : Flags) (width : Word) (va : ℕ) (o : Out σ) : Out σ × ℕ :=
  let o := if !flags.left then puts out o (spaces width 1) else o
  let o := put out o ((args va).setWidth 8)
  (if flags.left then puts out o (spaces width 1) else o, va + 1)

/-- The bytes of a string, up to its zero byte or to a number of them, and whether the zero byte was found. -/
def stringBytes (p : Word) : ℕ → List Byte × Bool
  | 0 => ([], false)
  | n + 1 =>
    if mem p = 0 then ([], true)
    else
      let (bytes, found) := stringBytes (p + 1) n
      (mem p :: bytes, found)

/-- `%s`. -/
def convertString (flags : Flags) (width precision : Word) (va : ℕ) (o : Out σ) : Option (Out σ × ℕ) :=
  let p := args va
  let l := (strnlen mem regs p (if precision ≠ 0 then precision else 0xFFFF)).1
  let l := if flags.precision then (if l < precision then l else precision) else l
  let o := if !flags.left then puts out o (spaces width l) else o
  let (bytes, found) := stringBytes mem p (if flags.precision then precision.toNat else 0x10000)
  let o := puts out o bytes
  -- without a precision, the loop ends with a zero byte only
  if flags.precision ∨ found then some (if flags.left then puts out o (spaces width l) else o, va + 1) else none

/-- `%p`. -/
def convertPointer (flags : Flags) (precision : Word) (va : ℕ) (o : Out σ) : Out σ × ℕ :=
  (ntoaLong out o ((args va).setWidth 32) false 16 precision 4 { flags with zeropad := true, uppercase := true }, va + 1)

/-- A specifier: the output, and the next argument. -/
def convert (spec : Byte) (flags : Flags) (width precision : Word) (va : ℕ) (o : Out σ) : Option (Out σ × ℕ) :=
  if spec ∈ integerSpecs then some (convertInteger out args spec flags width precision va o)
  else if spec = ch 'c' then some (convertChar out args flags width va o)
  else if spec = ch 's' then convertString out mem regs args flags width precision va o
  else if spec = ch 'p' then some (convertPointer out args flags precision va o)
  else some (put out o spec, va)

/-! ## Formats -/

/-- The fields of a directive, behind its percent sign: the width, the precision, the flags and the next argument, and
what is left of the format. -/
def directive (va : ℕ) (format : List Byte) : Option ((Word × Word × Flags × ℕ) × List Byte) := do
  let (flags, format) ← flagsField {} format
  let ((width, flags, va), format) ← widthField args flags va format
  let ((precision, flags, va), format) ← precisionField args flags va format
  let (flags, format) ← lengthField flags format
  some ((width, precision, flags, va), format)

/-- The loop over a format, with a bound on the number of its turns. -/
def vsnprintfLoop : ℕ → List Byte → ℕ → Out σ → Option (Out σ)
  | 0, _, _, _ => none
  | _ + 1, [], _, _ => none
  | turns + 1, c :: format, va, o =>
    if c = 0 then some o
    else if c ≠ ch '%' then vsnprintfLoop turns format va (put out o c)
    else
      match directive args va format with
      | some ((width, precision, flags, va), spec :: format) => do
        let (o, va) ← convert out mem regs args spec flags width precision va o
        vsnprintfLoop turns format va o
      | _ => none

/-- `_vsnprintf`: the state of the output, and the number of characters. -/
def vsnprintf (maxlen : Word) (format : List Byte) (state : σ) : Option (σ × Word) := do
  let o ← vsnprintfLoop out mem regs args format.length format 0 ⟨state, 0⟩
  some (out 0 (if o.idx < maxlen then o.idx else maxlen - 1) o.state, o.idx)

end Specifiers

/-! ## The functions -/

/-- `_out_buffer`. -/
def outBuffer (maxlen : Word) (c : Byte) (idx : Word) (buffer : Word → Byte) : Word → Byte :=
  if idx < maxlen then Function.update buffer idx c else buffer

/-- `_out_null`. -/
def outNull {σ : Type} (_ : Byte) (_ : Word) (state : σ) : σ := state

/-- `_out_char`, with what `putchar` was called with. -/
def outChar (c : Byte) (_ : Word) (sent : List Byte) : List Byte := if c ≠ 0 then sent ++ [c] else sent

section Functions

variable (mem : Word → Byte) (regs : Regs) (args : ℕ → Word)

/-- `snprintf`, for a buffer that is not `NULL`. -/
def snprintf (buffer : Word → Byte) (count : Word) (format : List Byte) : Option ((Word → Byte) × Word) :=
  vsnprintf (outBuffer count) mem regs args count format buffer

/-- `snprintf(NULL, count, ...)`. -/
def snprintfNull (count : Word) (format : List Byte) : Option Word :=
  (vsnprintf outNull mem regs args count format ()).map Prod.snd

/-- `printf`: what `putchar` was called with, and the result. -/
def printf (format : List Byte) : Option (List Byte × Word) := vsnprintf outChar mem regs args 0xFFFF format []

end Functions

end I80k.Libc

import I80k.Lib.Logged
import I80k.Libc.MallocSize

/-!
# The parser of a card's identity

The part of `cf20_identify` in `cf20_cmds.c` that takes the identity of a card from the words of a sector: fields of
one word or of two, and three strings, each of which is filled in pairs of characters, terminated, and trimmed from
its end. Every access to a word, and to a character of a string, is written down.

The characters of the serial number are in the order of the bytes; those of the firmware and of the model are the
other way round in each word.

## Main definitions

* `Cf20Identity`, `CharField`: the identity, and its strings
* `Identifying`: the state of a call of `cf20_identify`, with the accesses up to there
* `Identifying.parse`: the parser
* `Identifying.trimmed`: a string without its trailing spaces

## Main results

* `Identifying.extends_parse`: the words and the characters that are accessed
* `Identifying.parse_chars`, `Identifying.terminated_parse`: the strings
-/

namespace I80k.Kernel

open Libc Logged

/-! ## The identity -/

/-- The strings of the identity. -/
inductive CharField
  | serial
  | firmware
  | model
  deriving DecidableEq

/-- The number of characters of the array: `serial[21]`, `firmware[9]` and `model[41]`. -/
def CharField.size : CharField → ℕ
  | .serial => 21
  | .firmware => 9
  | .model => 41

/-- `struct cf20_identity`. -/
structure Cf20Identity where
  defaultCylCount : Word
  defaultHeadsCount : Word
  defaultSecPerTrack : Word
  secPerCard : BitVec 32
  /-- `serial`, `firmware` and `model`. -/
  chars : CharField → ℕ → BitVec 8
  eccBytesCount : Word
  maxSecCount : Word
  capabilities : Word
  pioTimingMode : Word
  fieldValidity : Word
  currCylCount : Word
  currHeadsCount : Word
  currSecPerTrack : Word
  curCapacity : BitVec 32
  multipleSectorSetting : Word
  totalSecCount : BitVec 32
  advancedPioModes : Word
  minPioXferCycleWoFc : Word
  minPioXferCycleWithFc : Word
  featCmdSupported : Word × Word × Word
  featCmdEnabled : Word × Word × Word
  securityEraseTime : Word
  enhancedSecurityEraseTime : Word
  advPmValue : Word
  securityStatus : Word
  powerReq : Word
  keyMgmtSchemes : Word
  deriving Inhabited

/-- The registers that are written. -/
inductive Cf20Reg
  | cardHead
  | cmd
  deriving DecidableEq

/-- What the function does to the card, to the buffer and to the strings. -/
inductive Cf20Access
  /-- A byte is written to a register. -/
  | outb (reg : Cf20Reg) (byte : BitVec 8)
  /-- `in_buf[i]` is written. -/
  | store (i : ℕ)
  /-- `buf[k]` is read. -/
  | load (k : ℕ)
  /-- A character is read or written. -/
  | char (f : CharField) (i : ℕ)
  deriving DecidableEq

/-! ## The parser -/

/-- The state of a call. -/
structure Identifying (β : Type) where
  data : Data β
  /-- `uint16_t *buf`. -/
  buf : Word
  id : Cf20Identity
  accesses : List Cf20Access

variable {β : Type}

namespace Identifying

variable (s : Identifying β)

/-- An access is written down. -/
def log (a : Cf20Access) : Identifying β := { s with accesses := s.accesses ++ [a] }

def outb (reg : Cf20Reg) (byte : BitVec 8) : Identifying β := s.log (.outb reg byte)

/-- `in_buf[i] = byte`. -/
def storeByte (i : ℕ) (byte : BitVec 8) : Identifying β :=
  { s with data := s.data.memset (s.buf + BitVec.ofNat 16 i) byte 1 }.log (.store i)

/-- The contents of `buf[k]`. -/
def word (k : ℕ) : Word := s.data.mem (s.buf + BitVec.ofNat 16 (2 * k))

/-- A character is written. -/
def setChar (f : CharField) (i : ℕ) (c : BitVec 8) : Identifying β :=
  { s with id := { s.id with chars := Function.update s.id.chars f (Function.update (s.id.chars f) i c) } }.log
    (.char f i)

end Identifying

/-- An assignment to a field of the identity: from a word, or from two of them. -/
inductive Assign
  | word (k : ℕ) (set : Cf20Identity → Word → Cf20Identity)
  | pair (lo hi : ℕ) (set : Cf20Identity → BitVec 32 → Cf20Identity)

namespace Assign

/-- The words that are read. -/
def words : Assign → List ℕ
  | .word k _ => [k]
  | .pair lo hi _ => [lo, hi]

/-- The strings are not changed. -/
def KeepsChars : Assign → Prop
  | .word _ set => ∀ id w, (set id w).chars = id.chars
  | .pair _ _ set => ∀ id n, (set id n).chars = id.chars

end Assign

namespace Identifying

def assign (s : Identifying β) : Assign → Identifying β
  | .word k set => { s.log (.load k) with id := set s.id (s.word k) }
  | .pair lo hi set =>
    { (s.log (.load lo)).log (.load hi) with
      id := set s.id ((s.word lo).setWidth 32 ||| (s.word hi).setWidth 32 <<< 16) }

def assignAll (s : Identifying β) (fields : List Assign) : Identifying β := fields.foldl assign s

/-- `for (int i = 0; i < n; i += 2)`. -/
def byPairs (turn : ℕ → Identifying β → Identifying β) (n : ℕ) (s : Identifying β) : Identifying β :=
  (List.range (n / 2)).foldl (fun s j => turn (2 * j) s) s

/-- A turn for the serial number: the low byte of a word comes first. -/
def serialTurn (i : ℕ) (s : Identifying β) : Identifying β :=
  let w := s.word (10 + i / 2)
  let s := (s.log (.load (10 + i / 2))).setChar .serial i (w.setWidth 8)
  (s.log (.load (10 + i / 2))).setChar .serial (i + 1) ((w >>> 8).setWidth 8)

/-- A turn for the firmware and the model: the high byte of a word comes first. -/
def swappedTurn (f : CharField) (first i : ℕ) (s : Identifying β) : Identifying β :=
  let w := s.word (first + i / 2)
  let s := (s.log (.load (first + i / 2))).setChar f (i + 1) (w.setWidth 8)
  (s.log (.load (first + i / 2))).setChar f i ((w >>> 8).setWidth 8)

/-- The character is not one to remove. -/
def Kept (c : BitVec 8) : Prop := c ≠ 0 ∧ c ≠ 0x20

instance (c : BitVec 8) : Decidable (Kept c) := inferInstanceAs (Decidable (_ ∧ _))

/-- `for (int i = n - 1; i >= 0; i--)`: trailing spaces are removed. -/
def trim (f : CharField) : ℕ → Identifying β → Identifying β
  | 0, s => s
  | i + 1, s => if Kept (s.id.chars f i) then s.log (.char f i) else trim f i ((s.log (.char f i)).setChar f i 0)

/-- A string of `n` characters is written, terminated, and trimmed. -/
def parseChars (f : CharField) (turn : ℕ → Identifying β → Identifying β) (n : ℕ) (s : Identifying β) :
    Identifying β :=
  trim f n ((byPairs turn n s).setChar f n 0)

def parseSerial : Identifying β → Identifying β := parseChars .serial serialTurn 20

def parseFirmware : Identifying β → Identifying β := parseChars .firmware (swappedTurn .firmware 23) 8

def parseModel : Identifying β → Identifying β := parseChars .model (swappedTurn .model 27) 40

/-- The fields before the serial number. -/
def geometryFields : List Assign :=
  [.word 1 fun id w => { id with defaultCylCount := w },
   .word 3 fun id w => { id with defaultHeadsCount := w },
   .word 6 fun id w => { id with defaultSecPerTrack := w },
   .pair 8 7 fun id n => { id with secPerCard := n }]

/-- The field between the serial number and the firmware. -/
def eccFields : List Assign := [.word 22 fun id w => { id with eccBytesCount := w }]

/-- The fields after the model. -/
def otherFields : List Assign :=
  [.word 47 fun id w => { id with maxSecCount := w },
   .word 49 fun id w => { id with capabilities := w },
   .word 51 fun id w => { id with pioTimingMode := w },
   .word 53 fun id w => { id with fieldValidity := w },
   .word 54 fun id w => { id with currCylCount := w },
   .word 55 fun id w => { id with currHeadsCount := w },
   .word 56 fun id w => { id with currSecPerTrack := w },
   .pair 57 58 fun id n => { id with curCapacity := n },
   .word 59 fun id w => { id with multipleSectorSetting := w },
   .pair 60 61 fun id n => { id with totalSecCount := n },
   .word 64 fun id w => { id with advancedPioModes := w },
   .word 67 fun id w => { id with minPioXferCycleWoFc := w },
   .word 68 fun id w => { id with minPioXferCycleWithFc := w },
   .word 82 fun id w => { id with featCmdSupported := (w, id.featCmdSupported.2) },
   .word 83 fun id w => { id with featCmdSupported := (id.featCmdSupported.1, w, id.featCmdSupported.2.2) },
   .word 84 fun id w => { id with featCmdSupported := (id.featCmdSupported.1, id.featCmdSupported.2.1, w) },
   .word 85 fun id w => { id with featCmdEnabled := (w, id.featCmdEnabled.2) },
   .word 86 fun id w => { id with featCmdEnabled := (id.featCmdEnabled.1, w, id.featCmdEnabled.2.2) },
   .word 87 fun id w => { id with featCmdEnabled := (id.featCmdEnabled.1, id.featCmdEnabled.2.1, w) },
   .word 89 fun id w => { id with securityEraseTime := w },
   .word 90 fun id w => { id with enhancedSecurityEraseTime := w },
   .word 91 fun id w => { id with advPmValue := w },
   .word 128 fun id w => { id with securityStatus := w },
   .word 160 fun id w => { id with powerReq := w },
   .word 162 fun id w => { id with keyMgmtSchemes := w }]

/-- The words are parsed. -/
def parse (s : Identifying β) : Identifying β :=
  let s := s.assignAll geometryFields
  let s := s.parseSerial
  let s := s.assignAll eccFields
  let s := s.parseFirmware
  let s := s.parseModel
  s.assignAll otherFields

end Identifying

/-! ## Accesses -/

namespace Identifying

variable {s s' t : Identifying β}

theorem extends_log {P : Cf20Access → Prop} {a : Cf20Access} (ha : P a) : Extends accesses P s (s.log a) :=
  .of_snoc rfl ha

/-- The accesses of the parser: up to the word 162, and inside of the strings. -/
def ParserAccess : Cf20Access → Prop
  | .load k => k ≤ 162
  | .char f i => i < f.size
  | _ => False

theorem extends_setChar {f : CharField} {i : ℕ} (h : i < f.size) (c : BitVec 8) :
    Extends accesses ParserAccess s (s.setChar f i c) := by
  have hchar : ParserAccess (.char f i) := h
  exact .of_snoc rfl hchar

theorem extends_assign {a : Assign} (h : ∀ k ∈ a.words, k ≤ 162) : Extends accesses ParserAccess s (s.assign a) := by
  cases a with
  | word k set =>
    have hk : ParserAccess (.load k) := h k List.mem_cons_self
    exact .of_snoc rfl hk
  | pair lo hi set =>
    have hlo : ParserAccess (.load lo) := h lo List.mem_cons_self
    have hhi : ParserAccess (.load hi) := h hi (List.mem_cons_of_mem lo List.mem_cons_self)
    have hboth : Extends accesses ParserAccess s ((s.log (.load lo)).log (.load hi)) :=
      (extends_log hlo).trans (extends_log hhi)
    exact hboth

theorem extends_assignAll {fields : List Assign} (h : ∀ a ∈ fields, ∀ k ∈ a.words, k ≤ 162) :
    Extends accesses ParserAccess s (s.assignAll fields) := Extends.foldl fun a ha _ => extends_assign (h a ha)

theorem extends_byPairs {turn : ℕ → Identifying β → Identifying β} {n : ℕ}
    (h : ∀ i, i + 1 < n → ∀ s, Extends accesses P s (turn i s)) : Extends accesses P s (byPairs turn n s) := by
  apply Extends.foldl
  intro j hj s
  have hlt := List.mem_range.mp hj
  exact h (2 * j) (by omega) s

theorem extends_serialTurn {i : ℕ} (hi : i + 1 < 20) (s : Identifying β) :
    Extends accesses ParserAccess s (serialTurn i s) := by
  have hload : ParserAccess (.load (10 + i / 2)) := show 10 + i / 2 ≤ 162 by omega
  have hfirst : i < CharField.serial.size := show i < 21 by omega
  have hsecond : i + 1 < CharField.serial.size := show i + 1 < 21 by omega
  exact (((extends_log hload).trans (extends_setChar hfirst _)).trans (extends_log hload)).trans
    (extends_setChar hsecond _)

theorem extends_swappedTurn {f : CharField} {first i : ℕ} (hfirst : first + i / 2 ≤ 162) (hi : i + 1 < f.size)
    (s : Identifying β) : Extends accesses ParserAccess s (swappedTurn f first i s) := by
  have hload : ParserAccess (.load (first + i / 2)) := hfirst
  exact (((extends_log hload).trans (extends_setChar hi _)).trans (extends_log hload)).trans
    (extends_setChar (Nat.lt_of_succ_lt hi) _)

theorem extends_trim {f : CharField} {n : ℕ} (hn : n ≤ f.size) : Extends accesses ParserAccess s (trim f n s) := by
  induction n generalizing s with
  | zero => exact .of_eq rfl
  | succ i ih =>
    have hlog : Extends accesses ParserAccess s (s.log (.char f i)) := extends_log hn
    rw [trim]
    split_ifs
    · exact hlog
    · exact (hlog.trans (extends_setChar hn 0)).trans (ih (Nat.le_of_succ_le hn))

/-- **The accesses of a string** are inside of its array. -/
theorem extends_parseChars {f : CharField} {turn : ℕ → Identifying β → Identifying β} {n : ℕ} (hn : n < f.size)
    (h : ∀ i, i + 1 < n → ∀ s, Extends accesses ParserAccess s (turn i s)) :
    Extends accesses ParserAccess s (parseChars f turn n s) :=
  ((extends_byPairs h).trans (extends_setChar hn 0)).trans (extends_trim hn.le)

/-- **The accesses of the parser.** -/
theorem extends_parse : Extends accesses ParserAccess s s.parse := by
  have hserial : ∀ s : Identifying β, Extends accesses ParserAccess s s.parseSerial := fun s =>
    extends_parseChars (by decide) fun i hi => extends_serialTurn hi
  have hfirmware : ∀ s : Identifying β, Extends accesses ParserAccess s s.parseFirmware := fun s =>
    extends_parseChars (by decide) fun i hi => extends_swappedTurn (by omega) (show i + 1 < 9 by omega)
  have hmodel : ∀ s : Identifying β, Extends accesses ParserAccess s s.parseModel := fun s =>
    extends_parseChars (by decide) fun i hi => extends_swappedTurn (by omega) (show i + 1 < 41 by omega)
  have hgeometry : ∀ a ∈ geometryFields, ∀ k ∈ a.words, k ≤ 162 := by simp [geometryFields, Assign.words]
  have hecc : ∀ a ∈ eccFields, ∀ k ∈ a.words, k ≤ 162 := by simp [eccFields, Assign.words]
  have hother : ∀ a ∈ otherFields, ∀ k ∈ a.words, k ≤ 162 := by simp [otherFields, Assign.words]
  exact (extends_assignAll hgeometry).trans <| (hserial _).trans <| (extends_assignAll hecc).trans <|
    (hfirmware _).trans <| (hmodel _).trans (extends_assignAll hother)

/-! ## The strings -/

/-- The memory stays as it is, the string `f` becomes `g`, and the others stay as they are. -/
structure SetsChars (f : CharField) (g : ℕ → BitVec 8) (s s' : Identifying β) : Prop where
  data : s'.data = s.data
  buf : s'.buf = s.buf
  chars : s'.id.chars = Function.update s.id.chars f g

namespace SetsChars

variable {f f' : CharField} {g g' : ℕ → BitVec 8}

theorem same (h : SetsChars f g s s') : s'.id.chars f = g := by rw [h.chars, Function.update_self]

theorem other (h : SetsChars f g s s') (hne : f' ≠ f) : s'.id.chars f' = s.id.chars f' := by
  rw [h.chars, Function.update_of_ne hne]

theorem word (h : SetsChars f g s s') : s'.word = s.word := by
  ext k
  rw [Identifying.word, Identifying.word, h.data, h.buf]

theorem trans (h : SetsChars f g s s') (h' : SetsChars f g' s' t) : SetsChars f g' s t where
  data := h'.data.trans h.data
  buf := h'.buf.trans h.buf
  chars := by rw [h'.chars, h.chars, Function.update_idem]

/-- The string that a second step writes is one that depends on the first. -/
theorem comp (F : (ℕ → BitVec 8) → ℕ → BitVec 8) (h : SetsChars f g s s')
    (h' : SetsChars f (F (s'.id.chars f)) s' t) : SetsChars f (F g) s t := by
  rw [h.same] at h'
  exact h.trans h'

theorem of_eq (hdata : s'.data = s.data) (hbuf : s'.buf = s.buf) (hchars : s'.id.chars = s.id.chars) :
    SetsChars f (s.id.chars f) s s' := ⟨hdata, hbuf, by rw [hchars, Function.update_eq_self]⟩

end SetsChars

variable {f : CharField}

theorem setsChars_log (a : Cf20Access) : SetsChars f (s.id.chars f) s (s.log a) := .of_eq rfl rfl rfl

theorem setsChars_setChar (i : ℕ) (c : BitVec 8) :
    SetsChars f (Function.update (s.id.chars f) i c) s (s.setChar f i c) := ⟨rfl, rfl, rfl⟩

theorem setsChars_assign {a : Assign} (h : a.KeepsChars) : SetsChars f (s.id.chars f) s (s.assign a) := by
  cases a with
  | word k set => exact .of_eq rfl rfl (h _ _)
  | pair lo hi set => exact .of_eq rfl rfl (h _ _)

theorem setsChars_assignAll {fields : List Assign} (h : ∀ a ∈ fields, a.KeepsChars) :
    SetsChars f (s.id.chars f) s (s.assignAll fields) := by
  induction fields generalizing s with
  | nil => exact .of_eq rfl rfl rfl
  | cons a fields ih =>
    have hfirst : SetsChars f (s.id.chars f) s (s.assign a) := setsChars_assign (h a List.mem_cons_self)
    exact hfirst.comp (fun g => g) (ih fun b hb => h b (List.mem_cons_of_mem a hb))

/-- The characters of the serial number. -/
def serialChar (word : ℕ → Word) (j : ℕ) : BitVec 8 :=
  if j % 2 = 0 then (word (10 + j / 2)).setWidth 8 else (word (10 + j / 2) >>> 8).setWidth 8

/-- The characters of the firmware and the model, whose first word is `first`. -/
def swappedChar (first : ℕ) (word : ℕ → Word) (j : ℕ) : BitVec 8 :=
  if j % 2 = 0 then (word (first + j / 2) >>> 8).setWidth 8 else (word (first + j / 2)).setWidth 8

/-- Two characters of a string are written, from the words. -/
def WritesPair (f : CharField) (src : (ℕ → Word) → ℕ → BitVec 8) (turn : ℕ → Identifying β → Identifying β) : Prop :=
  ∀ i, i % 2 = 0 → ∀ s,
    SetsChars f (fun j => if j = i ∨ j = i + 1 then src s.word j else s.id.chars f j) s (turn i s)

/-- Two reads of words, and two characters. -/
theorem setsChars_twice (a b : Cf20Access) (i j : ℕ) (c d : BitVec 8) :
    SetsChars f (Function.update (Function.update (s.id.chars f) i c) j d) s
      ((((s.log a).setChar f i c).log b).setChar f j d) := by
  refine ⟨rfl, rfl, ?_⟩
  change Function.update (Function.update s.id.chars f (Function.update (s.id.chars f) i c)) f
    (Function.update (Function.update s.id.chars f (Function.update (s.id.chars f) i c) f) j d) = _
  rw [Function.update_idem, Function.update_self]

theorem update_pair (c src : ℕ → BitVec 8) (i : ℕ) :
    Function.update (Function.update c i (src i)) (i + 1) (src (i + 1)) =
      fun j => if j = i ∨ j = i + 1 then src j else c j := by
  ext j : 1
  by_cases hj : j = i + 1
  · subst hj
    simp
  · by_cases hj' : j = i
    · subst hj'
      simp
    · simp [hj, hj']

theorem writesPair_serialTurn : WritesPair .serial serialChar (@serialTurn β) := by
  intro i hi s
  have hfirst : serialChar s.word i = (s.word (10 + i / 2)).setWidth 8 := if_pos hi
  have hsecond : serialChar s.word (i + 1) = (s.word (10 + i / 2) >>> 8).setWidth 8 := by
    rw [serialChar, if_neg (by omega), show (i + 1) / 2 = i / 2 by omega]
  rw [← update_pair, hfirst, hsecond]
  exact setsChars_twice _ _ _ _ _ _

theorem writesPair_swappedTurn (first : ℕ) : WritesPair f (swappedChar first) (@swappedTurn β f first) := by
  intro i hi s
  have hfirst : swappedChar first s.word i = (s.word (first + i / 2) >>> 8).setWidth 8 := if_pos hi
  have hsecond : swappedChar first s.word (i + 1) = (s.word (first + i / 2)).setWidth 8 := by
    rw [swappedChar, if_neg (by omega), show (i + 1) / 2 = i / 2 by omega]
  -- the second character is written first
  rw [← update_pair, hfirst, hsecond, Function.update_comm (Nat.succ_ne_self i).symm]
  exact setsChars_twice _ _ _ _ _ _

/-- **The loop that writes a string.** -/
theorem setsChars_byPairs {src : (ℕ → Word) → ℕ → BitVec 8} {turn : ℕ → Identifying β → Identifying β}
    (h : WritesPair f src turn) {n : ℕ} (hn : n % 2 = 0) :
    SetsChars f (fun j => if j < n then src s.word j else s.id.chars f j) s (byPairs turn n s) := by
  obtain ⟨m, rfl⟩ : ∃ m, n = 2 * m := ⟨n / 2, by omega⟩
  have hhalf : 2 * m / 2 = m := by omega
  rw [byPairs, hhalf]
  clear hn hhalf
  induction m with
  | zero => exact .of_eq rfl rfl rfl
  | succ m ih =>
    rw [List.range_succ, List.foldl_append, List.foldl_cons, List.foldl_nil]
    have hturn := h (2 * m) (by omega) ((List.range m).foldl (fun s j => turn (2 * j) s) s)
    rw [ih.word, ih.same] at hturn
    refine ⟨hturn.data.trans ih.data, hturn.buf.trans ih.buf, (ih.trans hturn).chars.trans ?_⟩
    congr 1
    ext j : 1
    by_cases hlast : j = 2 * m ∨ j = 2 * m + 1
    · have hlt : j < 2 * (m + 1) := by omega
      rw [if_pos hlast, if_pos hlt]
    · have hiff : j < 2 * m ↔ j < 2 * (m + 1) := by omega
      simp only [if_neg hlast, hiff]

/-- Of `n` characters those behind the last one that is kept are cleared. -/
def trimmed (n : ℕ) (c : ℕ → BitVec 8) (j : ℕ) : BitVec 8 := if j < n ∧ ∀ i < n, j ≤ i → ¬ Kept (c i) then 0 else c j

theorem trimmed_self (n : ℕ) (c : ℕ → BitVec 8) : trimmed n c n = c n := if_neg fun h => absurd h.1 (lt_irrefl n)

/-- Only the characters themselves matter. -/
theorem trimmed_congr {n j : ℕ} {c c' : ℕ → BitVec 8} (h : ∀ i < n, c i = c' i) (hj : j < n) :
    trimmed n c j = trimmed n c' j := by
  have hiff : (∀ i < n, j ≤ i → ¬ Kept (c i)) ↔ ∀ i < n, j ≤ i → ¬ Kept (c' i) := by
    apply forall₂_congr
    intro i hi
    rw [h i hi]
  simp only [trimmed, hiff, h j hj]

/-- The last character is kept: nothing is cleared. -/
theorem trimmed_of_kept {n : ℕ} {c : ℕ → BitVec 8} (h : Kept (c n)) : trimmed (n + 1) c = c := by
  ext j : 1
  apply if_neg
  rintro ⟨hj, hall⟩
  exact hall n (Nat.lt_succ_self n) (Nat.le_of_lt_succ hj) h

theorem forall_not_kept_update_iff {n : ℕ} {c : ℕ → BitVec 8} (h : ¬ Kept (c n)) (j : ℕ) :
    (∀ i < n, j ≤ i → ¬ Kept (Function.update c n 0 i)) ↔ ∀ i < n + 1, j ≤ i → ¬ Kept (c i) := by
  constructor
  · intro hall i hi hji
    rcases Nat.lt_succ_iff_lt_or_eq.mp hi with hi | rfl
    · have hkept := hall i hi hji
      rwa [Function.update_of_ne hi.ne] at hkept
    · exact h
  · intro hall i hi hji
    rw [Function.update_of_ne hi.ne]
    exact hall i (hi.trans (Nat.lt_succ_self n)) hji

/-- It is not kept: it is cleared, and the ones before it are trimmed. -/
theorem trimmed_of_not_kept {n : ℕ} {c : ℕ → BitVec 8} (h : ¬ Kept (c n)) :
    trimmed (n + 1) c = trimmed n (Function.update c n 0) := by
  ext j : 1
  simp only [trimmed, forall_not_kept_update_iff h]
  rcases lt_trichotomy j n with hj | rfl | hj
  · simp [hj, hj.trans (Nat.lt_succ_self n), hj.ne]
  · have hall : ∀ i < j + 1, j ≤ i → ¬ Kept (c i) := by
      intro i hi hji
      obtain rfl : i = j := by omega
      exact h
    rw [if_pos ⟨Nat.lt_succ_self j, hall⟩, if_neg fun hlt => absurd hlt.1 (lt_irrefl j), Function.update_self]
  · have hnot : ¬ j < n := by omega
    have hnot' : ¬ j < n + 1 := by omega
    rw [if_neg fun hlt => hnot' hlt.1, if_neg fun hlt => hnot hlt.1, Function.update_of_ne hj.ne']

/-- **The loop that trims a string.** -/
theorem setsChars_trim (n : ℕ) : SetsChars f (trimmed n (s.id.chars f)) s (trim f n s) := by
  induction n generalizing s with
  | zero =>
    have hnone : trimmed 0 (s.id.chars f) = s.id.chars f := by
      ext j : 1
      exact if_neg fun h => absurd h.1 (Nat.not_lt_zero j)
    exact hnone ▸ .of_eq rfl rfl rfl
  | succ i ih =>
    rw [trim]
    split_ifs with hkept
    · rw [trimmed_of_kept hkept]
      exact setsChars_log _
    · rw [trimmed_of_not_kept hkept]
      have hset : SetsChars f (Function.update (s.id.chars f) i 0) s ((s.log (.char f i)).setChar f i 0) :=
        ⟨rfl, rfl, rfl⟩
      exact hset.comp (trimmed i) ih

/-- A string of `n` characters, with what is behind it. -/
def textOf (n : ℕ) (c old : ℕ → BitVec 8) : ℕ → BitVec 8 :=
  trimmed n (Function.update (fun j => if j < n then c j else old j) n 0)

theorem textOf_self (n : ℕ) (c old : ℕ → BitVec 8) : textOf n c old n = 0 := by
  rw [textOf, trimmed_self, Function.update_self]

theorem textOf_of_lt {n j : ℕ} (c old : ℕ → BitVec 8) (hj : j < n) : textOf n c old j = trimmed n c j := by
  apply trimmed_congr _ hj
  intro i hi
  rw [Function.update_of_ne hi.ne, if_pos hi]

/-- **A string** is what was written, trimmed and terminated. -/
theorem setsChars_parseChars {src : (ℕ → Word) → ℕ → BitVec 8} {turn : ℕ → Identifying β → Identifying β}
    (h : WritesPair f src turn) {n : ℕ} (hn : n % 2 = 0) :
    SetsChars f (textOf n (src s.word) (s.id.chars f)) s (parseChars f turn n s) := by
  have hwrite := setsChars_byPairs (s := s) h hn
  have hterm := hwrite.comp (Function.update · n 0) (setsChars_setChar n 0)
  exact hterm.comp (trimmed n) (setsChars_trim n)

theorem setsChars_parseSerial :
    SetsChars .serial (textOf 20 (serialChar s.word) (s.id.chars .serial)) s s.parseSerial :=
  setsChars_parseChars writesPair_serialTurn rfl

theorem setsChars_parseFirmware :
    SetsChars .firmware (textOf 8 (swappedChar 23 s.word) (s.id.chars .firmware)) s s.parseFirmware :=
  setsChars_parseChars (writesPair_swappedTurn 23) rfl

theorem setsChars_parseModel :
    SetsChars .model (textOf 40 (swappedChar 27 s.word) (s.id.chars .model)) s s.parseModel :=
  setsChars_parseChars (writesPair_swappedTurn 27) rfl

/-- **The strings of the identity**, from the words of the buffer. -/
theorem parse_chars (s : Identifying β) :
    s.parse.id.chars .serial = textOf 20 (serialChar s.word) (s.id.chars .serial) ∧
      s.parse.id.chars .firmware = textOf 8 (swappedChar 23 s.word) (s.id.chars .firmware) ∧
        s.parse.id.chars .model = textOf 40 (swappedChar 27 s.word) (s.id.chars .model) := by
  let s₁ := s.assignAll geometryFields
  let s₂ := s₁.parseSerial
  let s₃ := s₂.assignAll eccFields
  let s₄ := s₃.parseFirmware
  let s₅ := s₄.parseModel
  have h₁ : ∀ f, SetsChars f (s.id.chars f) s s₁ := fun f =>
    setsChars_assignAll (by simp [geometryFields, Assign.KeepsChars])
  have h₂ : SetsChars .serial _ s₁ s₂ := setsChars_parseSerial
  have h₃ : ∀ f, SetsChars f (s₂.id.chars f) s₂ s₃ := fun f =>
    setsChars_assignAll (by simp [eccFields, Assign.KeepsChars])
  have h₄ : SetsChars .firmware _ s₃ s₄ := setsChars_parseFirmware
  have h₅ : SetsChars .model _ s₄ s₅ := setsChars_parseModel
  have h₆ : ∀ f, SetsChars f (s₅.id.chars f) s₅ s.parse := fun f =>
    setsChars_assignAll (by simp [otherFields, Assign.KeepsChars])
  -- the words are the same all along
  have hword₁ : s₁.word = s.word := (h₁ .serial).word
  have hword₃ : s₃.word = s.word := (h₃ .serial).word.trans (h₂.word.trans hword₁)
  have hword₄ : s₄.word = s.word := h₄.word.trans hword₃
  refine ⟨?_, ?_, ?_⟩
  · rw [(h₆ .serial).same, h₅.other (by decide), h₄.other (by decide), (h₃ .serial).same, h₂.same, hword₁,
      (h₁ .serial).same]
  · rw [(h₆ .firmware).same, h₅.other (by decide), h₄.same, hword₃, (h₃ .firmware).same, h₂.other (by decide),
      (h₁ .firmware).same]
  · rw [(h₆ .model).same, h₅.same, hword₄, h₄.other (by decide), (h₃ .model).same, h₂.other (by decide),
      (h₁ .model).same]

/-- The last character of the array is the terminator. -/
def Terminated (s : Identifying β) (f : CharField) : Prop := s.id.chars f (f.size - 1) = 0

theorem terminated_parse (s : Identifying β) (f : CharField) : s.parse.Terminated f := by
  obtain ⟨hserial, hfirmware, hmodel⟩ := s.parse_chars
  cases f with
  | serial =>
    rw [Terminated, hserial]
    exact textOf_self 20 _ _
  | firmware =>
    rw [Terminated, hfirmware]
    exact textOf_self 8 _ _
  | model =>
    rw [Terminated, hmodel]
    exact textOf_self 40 _ _

end Identifying

end I80k.Kernel

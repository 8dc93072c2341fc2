import Mathlib

/-!
# Paths

`fs_normalize_path` rewrites a path in place: it removes duplicate and trailing separators and fields
`.`, and lets a field `..` take back the field before it. It is a state machine over one buffer, with
a position to read from and a position to write to. The write position never passes the read
position, so the machine reads the characters of the original path, and it stops at the terminator at
the latest.

A C string is the list of its characters, without the terminator; a buffer has it.

## Main definitions

* `cstring`: the string that a buffer holds
* `strlcpy`: the copy that fits in `size` bytes
* `Norm`, `Norm.step`: the state of the loop of `fs_normalize_path`, and one turn of it
* `fsNormalizePath`: the whole function

## Main results

* `Norm.Reads.step`: a turn keeps the positions apart, and brings the end of the loop closer
* `fsNormalizePath_isSome`: the loop ends
-/

namespace I80k.Kernel

/-- A character. -/
abbrev Char8 := UInt8

/-- The character `/`. -/
def slash : Char8 := 47

/-- The character `.`. -/
def period : Char8 := 46

/-- The string in a buffer, up to its terminator. -/
def cstring (buf : List Char8) : List Char8 := buf.takeWhile (· ≠ 0)

/-- `strlcpy(dst, src, size)`: what `dst` holds afterwards. -/
def strlcpy (src : List Char8) (size : ℕ) : List Char8 := src.take (size - 1)

/-- `FS_MAX_PATH_LEN`. -/
def fsMaxPathLen : ℕ := 128

/-- The states of `fs_normalize_path`. -/
inductive NormState
  | initial
  | fieldStart
  | inField
  | sep
  | seenSep
  | dot
  | seenDot
  | dotdot
  | seenDotdot
  deriving DecidableEq

/-- The buffer and the variables of `fs_normalize_path`. -/
structure Norm where
  path : List Char8
  state : NormState
  pos : ℕ
  outpos : ℕ

namespace Norm

/-- `path[outpos++] = c`. -/
def emit (n : Norm) (c : Char8) : Norm :=
  { n with path := n.path.set n.outpos c, outpos := n.outpos + 1 }

/-- `pos++`. -/
def next (n : Norm) : Norm := { n with pos := n.pos + 1 }

/-- Moves to another state. -/
def goto (n : Norm) (state : NormState) : Norm := { n with state }

/-- Walks backwards until the next field boundary. -/
def boundary (path : List Char8) : ℕ → ℕ
  | 0 => 0
  | outpos + 1 => if path.getD outpos 0 = slash then outpos + 1 else boundary path outpos

/-- Takes back the field before, if there is one. -/
def backtrack (n : Norm) : Norm :=
  if 0 < n.outpos then { n with outpos := boundary n.path (n.outpos - 1) } else n

/-- One turn of the loop, and the flag `done`. -/
def step (n : Norm) : Norm × Bool :=
  let c := n.path.getD n.pos 0
  match n.state with
  | .initial =>
    if c = slash then (n.goto .sep, false)
    else if c = period then (n.goto .dot, false)
    else (n.goto .fieldStart, false)
  | .fieldStart =>
    if c = period then (n.goto .dot, false)
    else if c = 0 then (n, true)
    else (n.goto .inField, false)
  | .inField =>
    if c = slash then (n.goto .sep, false)
    else if c = 0 then (n, true)
    else ((n.emit c).next, false)
  | .sep => ((n.next.emit slash).goto .seenSep, false)
  | .seenSep =>
    if c = slash then (n.next, false)
    else if c = 0 then (n, true)
    else (n.goto .fieldStart, false)
  | .dot => (n.next.goto .seenDot, false)
  | .seenDot =>
    if c = period then (n.goto .dotdot, false)
    -- A field composed entirely of a dot: its separator is consumed with it.
    else if c = slash then (n.next.goto .seenSep, false)
    else if c = 0 then (n, true)
    else ((n.emit period).goto .inField, false)
  | .dotdot => (n.next.goto .seenDotdot, false)
  | .seenDotdot =>
    if c = slash ∨ c = 0 then (n.backtrack.next.goto .seenSep, c = 0)
    else (((n.emit period).emit period).goto .inField, false)

/-- The loop, for at most `fuel` turns. -/
def loop : ℕ → Norm → Option Norm
  | 0, _ => none
  | fuel + 1, n =>
    match n.step with
    | (n, true) => some n
    | (n, false) => loop fuel n

/-- Removes the trailing separator and terminates the string. -/
def finish (n : Norm) : Norm :=
  let n := if 0 < n.outpos ∧ n.path.getD (n.outpos - 1) 0 = slash
    then { n with outpos := n.outpos - 1 } else n
  n.emit 0

end Norm

/-- The string that `fs_normalize_path` leaves in the buffer of `path`. Each character takes at most
four turns. -/
def fsNormalizePath (path : List Char8) : Option (List Char8) :=
  (Norm.loop (4 * path.length + 8) ⟨path ++ [0], .initial, 0, 0⟩).map fun n =>
    cstring n.finish.path

/-! ## The loop ends -/

/-- How many characters were read and not yet written or dropped. -/
def NormState.held : NormState → ℕ
  | .seenDot => 1
  | .dotdot => 1
  | .seenDotdot => 2
  | _ => 0

/-- How many turns there can be before the next character is read. -/
def NormState.turns : NormState → ℕ
  | .initial => 3
  | .seenSep => 3
  | .fieldStart => 2
  | .seenDot => 2
  | .seenDotdot => 2
  | .inField => 1
  | _ => 0

/-- The character that a state was entered for. -/
def NormState.Expects (c : Char8) : NormState → Prop
  | .sep => c = slash
  | .dot => c = period
  | .dotdot => c = period
  | _ => True

namespace Norm

/-- The machine has not yet written over what it is still to read of `buf`. -/
structure Ahead (buf : List Char8) (n : Norm) : Prop where
  length : n.path.length = buf.length
  pos_lt : n.pos < buf.length
  unread : ∀ i, n.pos ≤ i → n.path.getD i 0 = buf.getD i 0

/-- The invariant of the loop: the characters held back are those between the two positions. -/
structure Reads (buf : List Char8) (n : Norm) : Prop where
  ahead : Ahead buf n
  outpos_le : n.outpos + n.state.held ≤ n.pos
  expects : n.state.Expects (buf.getD n.pos 0)

/-- What is left to do. -/
def measure (buf : List Char8) (n : Norm) : ℕ := 4 * (buf.length - n.pos) + n.state.turns

theorem boundary_le (path : List Char8) (outpos : ℕ) : boundary path outpos ≤ outpos := by
  induction outpos with
  | zero => exact le_rfl
  | succ outpos ih =>
    rw [boundary]
    split_ifs
    · exact le_rfl
    · omega

theorem backtrack_outpos_le (n : Norm) : n.backtrack.outpos ≤ n.outpos := by
  rw [backtrack]
  split_ifs
  · exact (boundary_le _ _).trans (Nat.sub_le _ _)
  · exact le_rfl

theorem backtrack_pos (n : Norm) : n.backtrack.pos = n.pos := by
  rw [backtrack]
  split_ifs <;> rfl

variable {buf : List Char8} {n n' : Norm}

theorem Ahead.emit (h : Ahead buf n) (c : Char8) (hout : n.outpos < n.pos) : Ahead buf (n.emit c) where
  length := by simpa [Norm.emit] using h.length
  pos_lt := h.pos_lt
  unread i hi := by
    have hne : n.outpos ≠ i := by
      rintro rfl
      exact absurd hi (not_le.mpr hout)
    rw [← h.unread i hi]
    simp [Norm.emit, List.getD_eq_getElem?_getD, List.getElem?_set_ne hne]

/-- A character that is not the terminator can be passed. -/
theorem Ahead.next (h : Ahead buf n) (hterm : buf.getD (buf.length - 1) 0 = 0)
    (hc : buf.getD n.pos 0 ≠ 0) : Ahead buf n.next where
  length := h.length
  pos_lt := by
    have hne : n.pos ≠ buf.length - 1 := by
      intro he
      rw [he] at hc
      exact hc hterm
    have hlt := h.pos_lt
    simp only [Norm.next]
    omega
  unread i hi := h.unread i (Nat.le_of_succ_le hi)

theorem Ahead.backtrack (h : Ahead buf n) : Ahead buf n.backtrack := by
  rw [Norm.backtrack]
  split_ifs
  · exact ⟨h.length, h.pos_lt, h.unread⟩
  · exact h

theorem Ahead.goto (h : Ahead buf n) (state : NormState) : Ahead buf (n.goto state) :=
  ⟨h.length, h.pos_lt, h.unread⟩

/-- A change of state alone. -/
theorem Reads.goto {state : NormState} (h : Reads buf n) (hheld : state.held ≤ n.state.held)
    (hexp : state.Expects (buf.getD n.pos 0)) (hturns : state.turns < n.state.turns) :
    Reads buf (n.goto state) ∧ measure buf (n.goto state) < measure buf n := by
  refine ⟨⟨h.ahead.goto state, ?_, hexp⟩, ?_⟩
  · have hle := h.outpos_le
    simp only [Norm.goto]
    omega
  · simp only [measure, Norm.goto]
    omega

/-- A turn that reads a character. -/
theorem Reads.of_next (ha : Ahead buf n') (hpos : n'.pos = n.pos + 1)
    (hout : n'.outpos + n'.state.held ≤ n'.pos) (hexp : ∀ c, n'.state.Expects c) :
    Reads buf n' ∧ measure buf n' < measure buf n := by
  refine ⟨⟨ha, hout, hexp _⟩, ?_⟩
  have hlt := ha.pos_lt
  have hturns : n'.state.turns ≤ 3 := by
    cases n'.state <;> simp [NormState.turns]
  simp only [measure]
  omega

/-- A turn that gives back the characters held. -/
theorem Reads.inField (h : Reads buf n) (ha : Ahead buf n') (hpos : n'.pos = n.pos)
    (hstate : n'.state = .inField) (hout : n'.outpos ≤ n.outpos + n.state.held)
    (hturns : 1 < n.state.turns) : Reads buf n' ∧ measure buf n' < measure buf n := by
  have hle := h.outpos_le
  refine ⟨⟨ha, ?_, ?_⟩, ?_⟩
  · rw [hstate, hpos]
    simp only [NormState.held]
    omega
  · rw [hstate]
    trivial
  · rw [measure, measure, hpos, hstate]
    exact Nat.add_lt_add_left hturns _

/-- **A turn of the loop**: the positions stay apart, and the end comes closer. -/
theorem Reads.step (h : Reads buf n) (hterm : buf.getD (buf.length - 1) 0 = 0)
    (hs : n.step = (n', false)) : Reads buf n' ∧ measure buf n' < measure buf n := by
  have hout := h.outpos_le
  have hexp := h.expects
  have hc : n.path.getD n.pos 0 = buf.getD n.pos 0 := h.ahead.unread _ le_rfl
  have hslash : slash ≠ 0 := by decide
  have hperiod : period ≠ 0 := by decide
  -- One case per state; only the turns that read a character need the terminator to be ahead.
  cases hst : n.state with
  | initial =>
    simp only [Norm.step, hst, hc] at hs
    split_ifs at hs with h₁ h₂
    · obtain ⟨rfl, -⟩ := Prod.mk.inj hs
      exact h.goto (by simp [hst, NormState.held]) h₁ (by simp [hst, NormState.turns])
    · obtain ⟨rfl, -⟩ := Prod.mk.inj hs
      exact h.goto (by simp [hst, NormState.held]) h₂ (by simp [hst, NormState.turns])
    · obtain ⟨rfl, -⟩ := Prod.mk.inj hs
      exact h.goto (by simp [hst, NormState.held]) trivial (by simp [hst, NormState.turns])
  | fieldStart =>
    simp only [Norm.step, hst, hc] at hs
    split_ifs at hs with h₁ h₂
    · obtain ⟨rfl, -⟩ := Prod.mk.inj hs
      exact h.goto (by simp [hst, NormState.held]) h₁ (by simp [hst, NormState.turns])
    · simp at hs
    · obtain ⟨rfl, -⟩ := Prod.mk.inj hs
      exact h.goto (by simp [hst, NormState.held]) trivial (by simp [hst, NormState.turns])
  | inField =>
    simp only [Norm.step, hst, hc] at hs
    simp only [hst, NormState.held] at hout
    split_ifs at hs with h₁ h₂
    · obtain ⟨rfl, -⟩ := Prod.mk.inj hs
      exact h.goto (by simp [hst, NormState.held]) h₁ (by simp [hst, NormState.turns])
    · simp at hs
    · obtain ⟨rfl, -⟩ := Prod.mk.inj hs
      -- The character is written where it was read, or before.
      refine Reads.of_next ((h.ahead.next hterm h₂).emit _ ?_) rfl ?_ ?_
      · simp only [Norm.next]
        omega
      · simp only [Norm.next, Norm.emit, hst, NormState.held]
        omega
      · simp [Norm.next, Norm.emit, hst, NormState.Expects]
  | sep =>
    simp only [Norm.step, hst] at hs
    simp only [hst, NormState.held, NormState.Expects] at hout hexp
    obtain ⟨rfl, -⟩ := Prod.mk.inj hs
    -- The state was entered for a separator, so this is not the terminator.
    refine Reads.of_next (((h.ahead.next hterm (hexp ▸ hslash)).emit _ ?_).goto _) rfl ?_ (fun _ => trivial)
    · simp only [Norm.next]
      omega
    · simp only [Norm.next, Norm.emit, Norm.goto, NormState.held]
      omega
  | seenSep =>
    simp only [Norm.step, hst, hc] at hs
    simp only [hst, NormState.held] at hout
    split_ifs at hs with h₁ h₂
    · obtain ⟨rfl, -⟩ := Prod.mk.inj hs
      refine Reads.of_next (h.ahead.next hterm (h₁ ▸ hslash)) rfl ?_ ?_
      · simp only [Norm.next, hst, NormState.held]
        omega
      · simp [Norm.next, hst, NormState.Expects]
    · simp at hs
    · obtain ⟨rfl, -⟩ := Prod.mk.inj hs
      exact h.goto (by simp [hst, NormState.held]) trivial (by simp [hst, NormState.turns])
  | dot =>
    simp only [Norm.step, hst] at hs
    simp only [hst, NormState.held, NormState.Expects] at hout hexp
    obtain ⟨rfl, -⟩ := Prod.mk.inj hs
    refine Reads.of_next ((h.ahead.next hterm (hexp ▸ hperiod)).goto _) rfl ?_ (fun _ => trivial)
    simp only [Norm.next, Norm.goto, NormState.held]
    omega
  | seenDot =>
    simp only [Norm.step, hst, hc] at hs
    simp only [hst, NormState.held] at hout
    split_ifs at hs with h₁ h₂ h₃
    · obtain ⟨rfl, -⟩ := Prod.mk.inj hs
      exact h.goto (by simp [hst, NormState.held]) h₁ (by simp [hst, NormState.turns])
    · obtain ⟨rfl, -⟩ := Prod.mk.inj hs
      refine Reads.of_next ((h.ahead.next hterm (h₂ ▸ hslash)).goto _) rfl ?_ (fun _ => trivial)
      simp only [Norm.next, Norm.goto, NormState.held]
      omega
    · simp at hs
    · obtain ⟨rfl, -⟩ := Prod.mk.inj hs
      -- The dot that was held back is written into the room it left.
      refine h.inField ((h.ahead.emit _ (by omega)).goto _) rfl rfl ?_ (by simp [hst, NormState.turns])
      simp [Norm.emit, Norm.goto, hst, NormState.held]
  | dotdot =>
    simp only [Norm.step, hst] at hs
    simp only [hst, NormState.held, NormState.Expects] at hout hexp
    obtain ⟨rfl, -⟩ := Prod.mk.inj hs
    refine Reads.of_next ((h.ahead.next hterm (hexp ▸ hperiod)).goto _) rfl ?_ (fun _ => trivial)
    simp only [Norm.next, Norm.goto, NormState.held]
    omega
  | seenDotdot =>
    simp only [Norm.step, hst, hc] at hs
    simp only [hst, NormState.held] at hout
    split_ifs at hs with h₁
    · obtain ⟨rfl, hdone⟩ := Prod.mk.inj hs
      -- At the terminator the loop would be done.
      have hne : buf.getD n.pos 0 ≠ 0 := by simpa using hdone
      have hpos := n.backtrack_pos
      have hle := n.backtrack_outpos_le
      refine Reads.of_next ((h.ahead.backtrack.next hterm (hpos.symm ▸ hne)).goto _) ?_ ?_ (fun _ => trivial)
      · simp only [Norm.next, Norm.goto, hpos]
      · simp only [Norm.next, Norm.goto, NormState.held, hpos]
        omega
    · obtain ⟨rfl, -⟩ := Prod.mk.inj hs
      -- Two dots were held back, and there is room for both.
      refine h.inField (((h.ahead.emit _ ?_).emit _ ?_).goto _) rfl rfl ?_
        (by simp [hst, NormState.turns])
      · omega
      · simp only [Norm.emit]
        omega
      · simp [Norm.emit, Norm.goto, hst, NormState.held]

/-- The loop ends within its measure. -/
theorem Reads.loop (hterm : buf.getD (buf.length - 1) 0 = 0) (fuel : ℕ) (h : Reads buf n)
    (hfuel : measure buf n < fuel) : (loop fuel n).isSome := by
  induction fuel generalizing n with
  | zero => omega
  | succ fuel ih =>
    rw [Norm.loop]
    rcases hs : n.step with ⟨n', _ | _⟩
    · obtain ⟨h', hlt⟩ := h.step hterm hs
      exact ih h' (by omega)
    · rfl

end Norm

/-- `fs_normalize_path` returns on every path. -/
theorem fsNormalizePath_isSome (path : List Char8) : (fsNormalizePath path).isSome := by
  rw [fsNormalizePath, Option.isSome_map]
  have hinit : Norm.Reads (path ++ [0]) ⟨path ++ [0], .initial, 0, 0⟩ :=
    ⟨⟨rfl, by simp, fun _ _ => rfl⟩, le_rfl, trivial⟩
  refine hinit.loop ?_ _ ?_
  · simp
  · simp only [Norm.measure, NormState.turns, List.length_append, List.length_singleton]
    omega

/-- The path that a function of `fs.c` works on: the copy of its argument in `temppath`, normalised. -/
def tempPath (path : List Char8) : List Char8 :=
  (fsNormalizePath (strlcpy path fsMaxPathLen)).getD []

end I80k.Kernel

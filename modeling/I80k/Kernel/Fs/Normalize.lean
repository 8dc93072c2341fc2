import I80k.Kernel.Fs.Path
import I80k.Lib.FieldStack

/-!
# Normalised paths

`fs_normalize_path` works in place, with one pass over the path. What it has written at the start of a
field is the stack of the fields so far, each with a separator behind it, and a field `..` finds the field
to take back by scanning what was written for the separator before it. A field is written as soon as it
is known to be a name. So every state of the machine determines what is left to do: the rest of the path,
behind the characters that are held back, on the stack that was written.

## Main definitions

* `Norm.out`: what was written so far
* `Norm.Tied`: the output and the rest of the path, for each state
* `Norm.written`, `Norm.touched`: the places that a turn of the loop writes, and all that it accesses
* `Norm.Visited`: the states at the turns of the loop

## Main results

* `Norm.Tied.step`, `Norm.Tied.done`: a turn of the loop, and the last one
* `Norm.step_frame`: a turn changes no other places than those it writes
* `fs_normalize_path_normalized`: the function leaves the normalised path, and does not change it when
  called again
-/

namespace I80k.Kernel

open FieldStack

namespace Norm

/-- What was written so far. -/
def out (n : Norm) : List Char8 := n.path.take n.outpos

/-- The buffer of a path at the first turn. -/
def start (path : List Char8) : Norm := ⟨path ++ [0], .initial, 0, 0⟩

/-- What is left of `path` when the machine is at a state, in terms of what it has written and of what it
has not read. -/
inductive Tied (path : List Char8) : NormState → List Char8 → List Char8 → Prop
  | initial : Tied path .initial [] path
  | fieldStart (stack : List (List Char8)) (rest : List Char8) (hstack : ∀ f ∈ stack, slash ∉ f)
      (hrest : rest.head? ≠ some slash)
      (h : normalized slash period path = [slash].intercalate (resolve slash period stack rest)) :
      Tied path .fieldStart (render slash stack) rest
  | inField (stack : List (List Char8)) (field rest : List Char8) (hstack : ∀ f ∈ stack, slash ∉ f)
      (hfield : slash ∉ field) (hname : Name period ((field ++ rest).takeWhile (· ≠ slash)))
      (h : normalized slash period path = [slash].intercalate (resolve slash period stack (field ++ rest))) :
      Tied path .inField (render slash stack ++ field) rest
  | sep (stack : List (List Char8)) (field rest : List Char8) (hstack : ∀ f ∈ stack ++ [field], slash ∉ f)
      (h : normalized slash period path =
        [slash].intercalate (resolve slash period (stack ++ [field]) rest)) :
      Tied path .sep (render slash stack ++ field) (slash :: rest)
  | seenSep (stack : List (List Char8)) (rest : List Char8) (hstack : ∀ f ∈ stack, slash ∉ f)
      (h : normalized slash period path = [slash].intercalate (resolve slash period stack rest)) :
      Tied path .seenSep (render slash stack) rest
  | dot (stack : List (List Char8)) (rest : List Char8) (hstack : ∀ f ∈ stack, slash ∉ f)
      (h : normalized slash period path =
        [slash].intercalate (resolve slash period stack (period :: rest))) :
      Tied path .dot (render slash stack) (period :: rest)
  | seenDot (stack : List (List Char8)) (rest : List Char8) (hstack : ∀ f ∈ stack, slash ∉ f)
      (h : normalized slash period path =
        [slash].intercalate (resolve slash period stack (period :: rest))) :
      Tied path .seenDot (render slash stack) rest
  | dotdot (stack : List (List Char8)) (rest : List Char8) (hstack : ∀ f ∈ stack, slash ∉ f)
      (h : normalized slash period path =
        [slash].intercalate (resolve slash period stack (period :: period :: rest))) :
      Tied path .dotdot (render slash stack) (period :: rest)
  | seenDotdot (stack : List (List Char8)) (rest : List Char8) (hstack : ∀ f ∈ stack, slash ∉ f)
      (h : normalized slash period path =
        [slash].intercalate (resolve slash period stack (period :: period :: rest))) :
      Tied path .seenDotdot (render slash stack) rest

/-- What is written when the loop is left: a stack with a trailing separator, or with a last name that has
none yet. -/
def Ended (path out : List Char8) : Prop :=
  ∃ stack, (out = render slash stack ∧ normalized slash period path = [slash].intercalate stack) ∨
    ∃ field, out = render slash stack ++ field ∧ field ≠ [] ∧ slash ∉ field ∧
      normalized slash period path = [slash].intercalate (stack ++ [field])

/-! ## What is written -/

section Out

variable {n : Norm} {path : List Char8}

@[simp] theorem out_goto (n : Norm) (state : NormState) : (n.goto state).out = n.out := rfl

@[simp] theorem out_next (n : Norm) : n.next.out = n.out := rfl

theorem out_emit (h : n.outpos < n.path.length) (c : Char8) : (n.emit c).out = n.out ++ [c] := by
  have hlen : n.outpos < (n.path.set n.outpos c).length := by simpa using h
  simp only [out, emit]
  rw [List.take_add_one, List.getElem?_eq_getElem hlen, List.getElem_set_self,
    List.take_set_of_le le_rfl]
  rfl

theorem length_out (h : n.outpos ≤ n.path.length) : n.out.length = n.outpos := by
  rw [out, List.length_take, min_eq_left h]

/-- The last of the first `k + 1` characters. -/
theorem getD_of_take {k : ℕ} {l : List Char8} {c : Char8} (h : path.take (k + 1) = l ++ [c])
    (hk : k + 1 ≤ path.length) : path.take k = l ∧ path.getD k 0 = c := by
  have hget : path[k]? = some path[k] := List.getElem?_eq_getElem hk
  rw [List.take_add_one, hget, Option.toList_some] at h
  obtain ⟨hl, hc⟩ := List.append_inj' h rfl
  refine ⟨hl, ?_⟩
  rw [List.getD_eq_getElem?_getD, hget]
  exact List.singleton_inj.mp hc

/-- The scan ends behind the separator before the last field. -/
theorem boundary_eq {a : List Char8} (ha : a = [] ∨ ∃ a', a = a' ++ [slash]) (f : List Char8) :
    ∀ {k : ℕ}, path.take k = a ++ f → k ≤ path.length → slash ∉ f → boundary path k = a.length := by
  induction f using List.reverseRecOn with
  | nil =>
    intro k h hk _
    have hlen := congrArg List.length h
    rw [List.length_take, min_eq_left hk, List.append_nil] at hlen
    rcases ha with rfl | ⟨a', rfl⟩
    · subst hlen
      rfl
    · rw [List.length_append, List.length_singleton] at hlen
      subst hlen
      rw [List.append_nil] at h
      rw [boundary, if_pos (getD_of_take h hk).2, List.length_append, List.length_singleton]
  | append_singleton f c ih =>
    intro k h hk hf
    have hlen := congrArg List.length h
    rw [List.length_take, min_eq_left hk, ← List.append_assoc, List.length_append,
      List.length_singleton] at hlen
    subst hlen
    rw [← List.append_assoc] at h
    obtain ⟨h', hc⟩ := getD_of_take h hk
    have hne : c ≠ slash := fun hc => hf (by simp [hc])
    rw [boundary, hc, if_neg hne]
    exact ih h' (Nat.le_of_succ_le hk) fun hmem => hf (by simp [hmem])

/-- Taking back a field takes the top off the stack that was written. -/
theorem out_backtrack {stack : List (List Char8)} (hstack : ∀ f ∈ stack, slash ∉ f)
    (hout : n.out = render slash stack) (hlen : n.outpos ≤ n.path.length) :
    n.backtrack.out = render slash stack.dropLast := by
  have hlength := length_out hlen
  rw [hout] at hlength
  rcases List.eq_nil_or_concat stack with rfl | ⟨stack, field, rfl⟩
  · have h₀ : ¬ 0 < n.outpos := by simpa using hlength.symm.le
    rw [backtrack, if_neg h₀, hout, List.dropLast_nil]
  · rw [List.concat_eq_append, render_append_singleton] at hout hlength
    rw [List.length_append, List.length_singleton] at hlength
    have htake : n.path.take (n.outpos - 1) = render slash stack ++ field := by
      rw [out, ← hlength] at hout
      rw [← hlength, Nat.add_sub_cancel]
      exact (getD_of_take hout (hlength ▸ hlen)).1
    have hbound : boundary n.path (n.outpos - 1) = (render slash stack).length :=
      boundary_eq (render_eq_nil_or stack) field htake (by omega) (hstack field (by simp))
    rw [backtrack, if_pos (by omega), out, hbound, List.concat_eq_append, List.dropLast_concat]
    -- the shorter output is the first part of what was there before the last separator
    have hle : (render slash stack).length ≤ n.outpos - 1 := by
      rw [← hlength, List.length_append]
      omega
    rw [← min_eq_left hle, ← List.take_take, htake, List.take_left]

end Out

/-! ## Turns of the loop -/

section Turns

variable {path : List Char8} {n n' : Norm}

theorem Reads.outpos_lt (h : Reads (path ++ [0]) n) : n.outpos + n.state.held < n.path.length := by
  have hpos := h.ahead.pos_lt
  have hlen := h.ahead.length
  have hle := h.outpos_le
  omega

/-- The character that a turn reads: the terminator, if nothing is left of the path. -/
theorem Reads.getD_pos (h : Reads (path ++ [0]) n) :
    n.path.getD n.pos 0 = (path.drop n.pos).headD 0 := by
  rw [h.ahead.unread _ le_rfl, List.headD_eq_head?_getD, List.head?_drop, List.getD_eq_getElem?_getD]
  by_cases hlt : n.pos < path.length
  · rw [List.getElem?_append_left hlt]
  · have hpos : n.pos = path.length := by
      have := h.ahead.pos_lt
      simp only [List.length_append, List.length_singleton] at this
      omega
    simp [hpos]

theorem drop_succ_of_cons {k : ℕ} {c : Char8} {rest : List Char8} (h : path.drop k = c :: rest) :
    path.drop (k + 1) = rest := by
  rw [← List.tail_drop, h, List.tail_cons]

/-- In the rest of a path a character is 0 only at its end. -/
theorem eq_nil_of_headD (h₀ : 0 ∉ path) {k : ℕ} (h : (path.drop k).headD 0 = 0) : path.drop k = [] := by
  cases hrest : path.drop k with
  | nil => rfl
  | cons c rest =>
    rw [hrest] at h
    have hc : c = 0 := h
    have hmem : c ∈ path := List.mem_of_mem_drop (hrest ▸ List.mem_cons_self)
    exact absurd (hc ▸ hmem) h₀

theorem exists_cons_of_headD {rest : List Char8} {c : Char8} (h : rest.headD 0 = c) (hc : c ≠ 0) :
    ∃ rest', rest = c :: rest' := by
  cases rest with
  | nil => exact absurd h.symm hc
  | cons d rest => exact ⟨rest, by rw [show d = c from h]⟩

/-- What the state says of the output and of the rest of the path. -/
def TiedAt (path : List Char8) (n : Norm) : Prop := Tied path n.state n.out (path.drop n.pos)

theorem TiedAt.of {state : NormState} {out rest : List Char8} (hst : n.state = state) (hout : n.out = out)
    (hrest : path.drop n.pos = rest) (h : Tied path state out rest) : TiedAt path n := by
  rw [TiedAt, hst, hout, hrest]
  exact h

/-- **A turn of the loop** leaves the same result to be computed. -/
theorem TiedAt.step (h : TiedAt path n) (hr : Reads (path ++ [0]) n) (h₀ : 0 ∉ path)
    (hs : n.step = (n', false)) : TiedAt path n' := by
  have hc := hr.getD_pos
  have hlt := hr.outpos_lt
  have hnil : n.path.getD n.pos 0 = 0 → path.drop n.pos = [] := fun hz =>
    eq_nil_of_headD h₀ (hc ▸ hz)
  have hslash : slash ≠ 0 := by decide
  have hperiod : period ≠ 0 := by decide
  have hne : slash ≠ period := by decide
  simp only [TiedAt] at h
  generalize hst : n.state = state at h hlt
  generalize hout : n.out = out at h
  generalize hrest : path.drop n.pos = rest at h hc hnil
  generalize hchar : n.path.getD n.pos 0 = c at hc hnil
  cases h with
  | initial =>
    simp only [Norm.step, hst, hchar] at hs
    split_ifs at hs with h₁ h₂
    · obtain ⟨rfl, -⟩ := Prod.mk.inj hs
      obtain ⟨rest, rfl⟩ := exists_cons_of_headD (hc.symm.trans h₁) hslash
      exact .of rfl hout hrest (.sep [] [] rest (by simp) (normalized_sep rest))
    · obtain ⟨rfl, -⟩ := Prod.mk.inj hs
      obtain ⟨rest, rfl⟩ := exists_cons_of_headD (hc.symm.trans h₂) hperiod
      exact .of rfl hout hrest (.dot [] rest (by simp) (normalized_of_head (by simp [hne.symm])))
    · obtain ⟨rfl, -⟩ := Prod.mk.inj hs
      have hhead : path.head? ≠ some slash := by
        intro hhead
        rw [List.headD_eq_head?_getD, hhead] at hc
        exact h₁ hc
      exact .of rfl hout hrest (.fieldStart [] path (by simp) hhead (normalized_of_head hhead))
  | fieldStart stack rest hstack hhead h =>
    simp only [Norm.step, hst, hchar] at hs
    split_ifs at hs with h₁ h₂
    · obtain ⟨rfl, -⟩ := Prod.mk.inj hs
      obtain ⟨rest, rfl⟩ := exists_cons_of_headD (hc.symm.trans h₁) hperiod
      exact .of rfl hout hrest (.dot stack rest hstack h)
    · simp at hs
    · obtain ⟨rfl, -⟩ := Prod.mk.inj hs
      obtain ⟨rest, rfl⟩ := exists_cons_of_headD hc.symm h₂
      have hc₁ : c ≠ slash := by simpa using hhead
      refine .of rfl (hout.trans (List.append_nil _).symm) hrest
        (.inField stack [] (c :: rest) hstack List.not_mem_nil ?_ h)
      simp [Name, hc₁, h₁]
  | inField stack field rest hstack hfield hname h =>
    simp only [Norm.step, hst, hchar] at hs
    split_ifs at hs with h₁ h₂
    · obtain ⟨rfl, -⟩ := Prod.mk.inj hs
      obtain ⟨rest, rfl⟩ := exists_cons_of_headD (hc.symm.trans h₁) hslash
      -- the field is complete, and it is the first one of what was left
      have hfirst : (field ++ slash :: rest).takeWhile (· ≠ slash) = field := by
        rw [takeWhile_field hfield]
        simp
      rw [hfirst] at hname
      rw [resolve_append_sep hfield, pushField_name hname] at h
      refine .of rfl hout hrest (.sep stack field rest (fun f hf => ?_) h)
      rcases List.mem_append.mp hf with hf | hf
      · exact hstack f hf
      · exact List.mem_singleton.mp hf ▸ hfield
    · simp at hs
    · obtain ⟨rfl, -⟩ := Prod.mk.inj hs
      obtain ⟨rest, rfl⟩ := exists_cons_of_headD hc.symm h₂
      have hfield' : slash ∉ field ++ [c] := by
        simp [hfield, Ne.symm h₁]
      rw [List.append_cons] at hname h
      refine .of hst ?_ (drop_succ_of_cons hrest) (.inField stack (field ++ [c]) rest hstack hfield' hname h)
      rw [out_next, out_emit (by simpa [NormState.held] using hlt), hout, List.append_assoc]
  | sep stack field rest hstack h =>
    simp only [Norm.step, hst] at hs
    obtain ⟨rfl, -⟩ := Prod.mk.inj hs
    refine .of rfl ?_ (drop_succ_of_cons hrest) (.seenSep (stack ++ [field]) rest hstack h)
    have hemit := @out_emit n.next (by simpa [NormState.held, Norm.next] using hlt) slash
    rw [out_goto, hemit, out_next, hout, render_append_singleton]
  | seenSep stack rest hstack h =>
    simp only [Norm.step, hst, hchar] at hs
    split_ifs at hs with h₁ h₂
    · obtain ⟨rfl, -⟩ := Prod.mk.inj hs
      obtain ⟨rest, rfl⟩ := exists_cons_of_headD (hc.symm.trans h₁) hslash
      rw [resolve_sep] at h
      exact .of hst hout (drop_succ_of_cons hrest) (.seenSep stack rest hstack h)
    · simp at hs
    · obtain ⟨rfl, -⟩ := Prod.mk.inj hs
      obtain ⟨rest, rfl⟩ := exists_cons_of_headD hc.symm h₂
      exact .of rfl hout hrest (.fieldStart stack (c :: rest) hstack (by simpa using h₁) h)
  | dot stack rest hstack h =>
    simp only [Norm.step, hst] at hs
    obtain ⟨rfl, -⟩ := Prod.mk.inj hs
    exact .of rfl hout (drop_succ_of_cons hrest) (.seenDot stack rest hstack h)
  | seenDot stack rest hstack h =>
    simp only [Norm.step, hst, hchar] at hs
    split_ifs at hs with h₁ h₂ h₃
    · obtain ⟨rfl, -⟩ := Prod.mk.inj hs
      obtain ⟨rest, rfl⟩ := exists_cons_of_headD (hc.symm.trans h₁) hperiod
      exact .of rfl hout hrest (.dotdot stack rest hstack h)
    · obtain ⟨rfl, -⟩ := Prod.mk.inj hs
      obtain ⟨rest, rfl⟩ := exists_cons_of_headD (hc.symm.trans h₂) hslash
      rw [resolve_dot_sep hne] at h
      exact .of rfl hout (drop_succ_of_cons hrest) (.seenSep stack rest hstack h)
    · simp at hs
    · obtain ⟨rfl, -⟩ := Prod.mk.inj hs
      obtain ⟨rest, rfl⟩ := exists_cons_of_headD hc.symm h₃
      refine .of rfl ?_ hrest (.inField stack [period] (c :: rest) hstack (by decide) ?_ h)
      · rw [out_goto, out_emit (by simp only [NormState.held] at hlt; omega), hout]
      · simp [Name, h₁, h₂, hne.symm]
  | dotdot stack rest hstack h =>
    simp only [Norm.step, hst] at hs
    obtain ⟨rfl, -⟩ := Prod.mk.inj hs
    exact .of rfl hout (drop_succ_of_cons hrest) (.seenDotdot stack rest hstack h)
  | seenDotdot stack rest hstack h =>
    simp only [Norm.step, hst, hchar] at hs
    simp only [NormState.held] at hlt
    split_ifs at hs with h₁
    · obtain ⟨rfl, hdone⟩ := Prod.mk.inj hs
      have hc₀ : c ≠ 0 := by simpa using hdone
      obtain ⟨rest, rfl⟩ := exists_cons_of_headD (hc.symm.trans (h₁.resolve_right hc₀)) hslash
      rw [resolve_dotdot_sep hne] at h
      refine .of rfl ?_ ?_ (.seenSep stack.dropLast rest (fun f hf => ?_) h)
      · exact out_backtrack hstack hout (by omega)
      · simp only [Norm.next, Norm.goto, backtrack_pos]
        exact drop_succ_of_cons hrest
      · exact hstack f (List.mem_of_mem_dropLast hf)
    · obtain ⟨rfl, -⟩ := Prod.mk.inj hs
      obtain ⟨h₁, h₂⟩ := not_or.mp h₁
      obtain ⟨rest, rfl⟩ := exists_cons_of_headD hc.symm h₂
      refine .of rfl ?_ hrest (.inField stack [period, period] (c :: rest) hstack (by decide) ?_ h)
      · have hemit := @out_emit (n.emit period) (by simp [Norm.emit]; omega) period
        rw [out_goto, hemit, out_emit (by omega), hout, List.append_assoc]
        rfl
      · simp [Name, h₁, hne.symm]

/-- The last turn of the loop: what was written is the result, up to a trailing separator. -/
theorem TiedAt.done (h : TiedAt path n) (hr : Reads (path ++ [0]) n) (h₀ : 0 ∉ path)
    (hs : n.step = (n', true)) : Ended path n'.out ∧ n'.outpos ≤ n.outpos ∧ n.pos ≤ n'.pos ∧
      n'.path = n.path := by
  have hc := hr.getD_pos
  have hlt := hr.outpos_lt
  have hnil : n.path.getD n.pos 0 = 0 → path.drop n.pos = [] := fun hz =>
    eq_nil_of_headD h₀ (hc ▸ hz)
  simp only [TiedAt] at h
  generalize hst : n.state = state at h hlt
  generalize hout : n.out = out at h
  generalize hrest : path.drop n.pos = rest at h hc hnil
  generalize hchar : n.path.getD n.pos 0 = c at hc hnil
  -- The loop is left at the terminator, in a state that stands between fields, in one or after dots.
  cases h with
  | initial =>
    simp only [Norm.step, hst, hchar] at hs
    split_ifs at hs <;> simp at hs
  | fieldStart stack rest hstack hhead h =>
    simp only [Norm.step, hst, hchar] at hs
    split_ifs at hs with h₁ h₂
    · simp at hs
    · obtain ⟨rfl, -⟩ := Prod.mk.inj hs
      rw [hnil h₂, resolve_nil] at h
      exact ⟨⟨stack, Or.inl ⟨hout, h⟩⟩, le_rfl, le_rfl, rfl⟩
    · simp at hs
  | inField stack field rest hstack hfield hname h =>
    simp only [Norm.step, hst, hchar] at hs
    split_ifs at hs with h₁ h₂
    · simp at hs
    · obtain ⟨rfl, -⟩ := Prod.mk.inj hs
      -- The name ends here, and is pushed as the last one.
      rw [hnil h₂, takeWhile_field hfield, List.takeWhile_nil, List.append_nil] at hname
      rw [hnil h₂, List.append_nil, resolve_field hfield, pushField_name hname] at h
      exact ⟨⟨stack, Or.inr ⟨field, hout, hname.1, hfield, h⟩⟩, le_rfl, le_rfl, rfl⟩
    · simp at hs
  | sep stack field rest hstack h =>
    simp [Norm.step, hst] at hs
  | seenSep stack rest hstack h =>
    simp only [Norm.step, hst, hchar] at hs
    split_ifs at hs with h₁ h₂
    · simp at hs
    · obtain ⟨rfl, -⟩ := Prod.mk.inj hs
      rw [hnil h₂, resolve_nil] at h
      exact ⟨⟨stack, Or.inl ⟨hout, h⟩⟩, le_rfl, le_rfl, rfl⟩
    · simp at hs
  | dot stack rest hstack h =>
    simp [Norm.step, hst] at hs
  | seenDot stack rest hstack h =>
    simp only [Norm.step, hst, hchar] at hs
    split_ifs at hs with h₁ h₂ h₃
    · simp at hs
    · simp at hs
    · obtain ⟨rfl, -⟩ := Prod.mk.inj hs
      -- A last field of one dot is skipped.
      rw [hnil h₃, resolve_field (by decide), pushField_dot] at h
      exact ⟨⟨stack, Or.inl ⟨hout, h⟩⟩, le_rfl, le_rfl, rfl⟩
    · simp at hs
  | dotdot stack rest hstack h =>
    simp [Norm.step, hst] at hs
  | seenDotdot stack rest hstack h =>
    simp only [Norm.step, hst, hchar] at hs
    split_ifs at hs with h₁
    · obtain ⟨rfl, hdone⟩ := Prod.mk.inj hs
      -- A last field of two dots takes back the one before it, first.
      have hz : c = 0 := by simpa using hdone
      rw [hnil hz, resolve_field (by decide), pushField_dotdot] at h
      have hback := out_backtrack hstack hout (by omega)
      refine ⟨⟨stack.dropLast, Or.inl ⟨hback, h⟩⟩, n.backtrack_outpos_le, ?_, ?_⟩
      · simp only [Norm.next, Norm.goto, backtrack_pos]
        omega
      · simp only [Norm.next, Norm.goto, backtrack]
        split_ifs <;> rfl
    · simp at hs

/-- The loop from a state that it can be in, to its last turn. -/
theorem exists_last_of_loop (h₀ : 0 ∉ path) (fuel : ℕ) {m : Norm} :
    ∀ {n : Norm}, Reads (path ++ [0]) n → TiedAt path n → loop fuel n = some m →
      ∃ last, Reads (path ++ [0]) last ∧ TiedAt path last ∧ last.step = (m, true) := by
  induction fuel with
  | zero =>
    intro n _ _ hl
    exact absurd hl (by simp [loop])
  | succ fuel ih =>
    intro n hr ht hl
    rw [loop] at hl
    rcases hs : n.step with ⟨n', _ | _⟩
    · rw [hs] at hl
      exact ih (hr.step (by simp) hs).1 (ht.step hr h₀ hs) hl
    · rw [hs] at hl
      exact ⟨n, hr, ht, Option.some.inj hl ▸ hs⟩

theorem zero_notMem_normalized (h₀ : 0 ∉ path) : 0 ∉ normalized slash period path := by
  intro hmem
  rcases mem_of_mem_normalized hmem with hz | hz
  · exact absurd hz (by decide)
  · exact h₀ hz

/-- The trailing separator is removed, and the result terminated. -/
theorem cstring_finish (h : Ended path n.out) (h₀ : 0 ∉ path) (hlt : n.outpos < n.path.length) :
    cstring n.finish.path = normalized slash period path := by
  have hmem := zero_notMem_normalized h₀
  -- terminated where the result ends, the buffer holds the result
  have hterm : ∀ {m : Norm}, m.outpos < m.path.length → m.out = normalized slash period path →
      cstring (m.emit 0).path = normalized slash period path := by
    intro m hlt hout
    have hsplit : (m.emit 0).path = m.out ++ 0 :: m.path.drop (m.outpos + 1) := by
      rw [emit, out, List.set_eq_take_append_cons_drop, if_pos hlt]
    rw [hsplit, cstring, hout, List.takeWhile_append_of_pos]
    · simp
    · intro c hc
      have hne : c ≠ 0 := fun hz => hmem (hz ▸ hc)
      simpa using hne
  have hlength := length_out hlt.le
  obtain ⟨stack, ⟨hout, hres⟩ | ⟨field, hout, hne, hfield, hres⟩⟩ := h
  · rcases List.eq_nil_or_concat stack with rfl | ⟨stack, field, rfl⟩
    · have hz : n.outpos = 0 := by simpa [hout] using hlength.symm
      rw [finish, if_neg (by omega)]
      exact hterm hlt (hout.trans hres.symm)
    · rw [List.concat_eq_append] at hout hres
      rw [render_append_singleton] at hout
      rw [intercalate_append_singleton] at hres
      rw [hout, List.length_append, List.length_singleton] at hlength
      rw [out, ← hlength] at hout
      obtain ⟨htake, hlast⟩ := getD_of_take hout (by omega)
      rw [finish, if_pos ⟨by omega, by rw [← hlength, Nat.add_sub_cancel]; exact hlast⟩]
      refine hterm (by simp only; omega) ?_
      rw [hres, out]
      simp only
      rw [← hlength, Nat.add_sub_cancel]
      exact htake
  · rw [intercalate_append_singleton] at hres
    obtain ⟨field, c, rfl⟩ := (List.eq_nil_or_concat field).resolve_left hne
    rw [List.concat_eq_append, ← List.append_assoc] at hout hres
    have hc : c ≠ slash := fun hc => hfield (by simp [hc])
    rw [hout, List.length_append, List.length_singleton] at hlength
    have hout' := hout
    rw [out, ← hlength] at hout'
    obtain ⟨-, hlast⟩ := getD_of_take hout' (by omega)
    rw [finish, if_neg]
    · exact hterm hlt (hout.trans hres.symm)
    · rintro ⟨-, hsep⟩
      rw [← hlength, Nat.add_sub_cancel, hlast] at hsep
      exact hc hsep

end Turns

/-! ## Accesses to the buffer -/

/-- The places that the backward scan reads. -/
def scanned (path : List Char8) : ℕ → List ℕ
  | 0 => []
  | outpos + 1 => outpos :: if path.getD outpos 0 = slash then [] else scanned path outpos

/-- The places that a turn writes. -/
def written (n : Norm) : List ℕ :=
  let c := n.path.getD n.pos 0
  match n.state with
  | .inField => if c = slash ∨ c = 0 then [] else [n.outpos]
  | .sep => [n.outpos]
  | .seenDot => if c = period ∨ c = slash ∨ c = 0 then [] else [n.outpos]
  | .seenDotdot => if c = slash ∨ c = 0 then [] else [n.outpos, n.outpos + 1]
  | _ => []

/-- The places that a turn reads or writes. -/
def touched (n : Norm) : List ℕ :=
  let c := n.path.getD n.pos 0
  n.pos :: n.written ++
    if n.state = .seenDotdot ∧ (c = slash ∨ c = 0) then scanned n.path (n.outpos - 1) else []

/-- The places that are accessed after the loop. -/
def finishTouched (n : Norm) : List ℕ :=
  (if 0 < n.outpos then [n.outpos - 1] else []) ++ [n.finish.outpos - 1]

/-- The states at the turns of the loop. -/
inductive Visited (path : List Char8) : Norm → Prop
  | start : Visited path (start path)
  | step {n n' : Norm} (h : Visited path n) (hs : n.step = (n', false)) : Visited path n'

/-- A turn changes the places that it writes, and no others. -/
theorem step_frame (n : Norm) {i : ℕ} (hi : i ∉ n.written) :
    n.step.1.path.getD i 0 = n.path.getD i 0 := by
  have hset : ∀ (l : List Char8) (k : ℕ) (c : Char8), i ≠ k → (l.set k c).getD i 0 = l.getD i 0 :=
    fun l k c hne => by simp [List.getD_eq_getElem?_getD, List.getElem?_set_ne hne.symm]
  -- Taking back a field only moves the write position.
  have hback : n.backtrack.path = n.path := by
    rw [backtrack]
    split_ifs <;> rfl
  -- Three states write at all, and each says where.
  cases hst : n.state with
  | initial =>
    simp only [step, hst]
    split_ifs <;> rfl
  | fieldStart =>
    simp only [step, hst]
    split_ifs <;> rfl
  | inField =>
    simp only [written, hst] at hi
    simp only [step, hst]
    split_ifs with h₁ h₂
    · rfl
    · rfl
    · rw [if_neg (not_or.mpr ⟨h₁, h₂⟩)] at hi
      exact hset _ _ _ (by simpa using hi)
  | sep =>
    simp only [written, hst] at hi
    simp only [step, hst]
    exact hset _ n.outpos _ (by simpa using hi)
  | seenSep =>
    simp only [step, hst]
    split_ifs <;> rfl
  | dot => rw [step, hst]; rfl
  | seenDot =>
    simp only [written, hst] at hi
    simp only [step, hst]
    split_ifs with h₁ h₂ h₃
    · rfl
    · rfl
    · rfl
    · rw [if_neg (not_or.mpr ⟨h₁, not_or.mpr ⟨h₂, h₃⟩⟩)] at hi
      exact hset _ _ _ (by simpa using hi)
  | dotdot => rw [step, hst]; rfl
  | seenDotdot =>
    simp only [step, written, hst] at hi ⊢
    split_ifs at hi ⊢
    · simp only [goto, next, hback]
    · simp only [List.mem_cons, List.not_mem_nil, or_false, not_or] at hi
      simp only [goto, emit]
      -- The second dot was written last.
      rw [hset _ _ _ hi.2, hset _ _ _ hi.1]

theorem lt_of_mem_scanned {path : List Char8} {k i : ℕ} (h : i ∈ scanned path k) : i < k := by
  induction k with
  | zero => exact absurd h List.not_mem_nil
  | succ k ih =>
    rw [scanned, List.mem_cons] at h
    rcases h with rfl | h
    · exact Nat.lt_succ_self _
    · split_ifs at h
      · exact absurd h List.not_mem_nil
      · exact (ih h).trans (Nat.lt_succ_self k)

section Accesses

variable {path : List Char8} {n : Norm}

theorem reads_start (path : List Char8) : Reads (path ++ [0]) (start path) :=
  ⟨⟨rfl, by simp [start], fun _ _ => rfl⟩, le_rfl, trivial⟩

theorem Visited.reads (h : Visited path n) : Reads (path ++ [0]) n := by
  induction h with
  | start => exact reads_start path
  | step _ hs ih => exact (ih.step (by simp) hs).1

/-- A place is written after the characters there have been read. -/
theorem Reads.written_le (h : Reads (path ++ [0]) n) {i : ℕ} (hi : i ∈ n.written) : i ≤ n.pos := by
  have hle := h.outpos_le
  -- What is written was held back, so it is not ahead of the read position.
  cases hst : n.state with
  | inField =>
    simp only [written, hst, NormState.held] at hi hle
    split_ifs at hi
    · exact absurd hi List.not_mem_nil
    · have := List.mem_singleton.mp hi
      omega
  | sep =>
    simp only [written, hst, NormState.held] at hi hle
    have := List.mem_singleton.mp hi
    omega
  | seenDot =>
    simp only [written, hst, NormState.held] at hi hle
    split_ifs at hi
    · exact absurd hi List.not_mem_nil
    · have := List.mem_singleton.mp hi
      omega
  | seenDotdot =>
    simp only [written, hst, NormState.held] at hi hle
    split_ifs at hi
    · exact absurd hi List.not_mem_nil
    · simp only [List.mem_cons, List.not_mem_nil, or_false] at hi
      omega
  | _ =>
    simp only [written, hst] at hi
    exact absurd hi List.not_mem_nil

/-- No turn goes beyond the terminator. -/
theorem Reads.touched_le (h : Reads (path ++ [0]) n) {i : ℕ} (hi : i ∈ n.touched) : i ≤ path.length := by
  have hpos : n.pos ≤ path.length := by
    have := h.ahead.pos_lt
    simp only [List.length_append, List.length_singleton] at this
    omega
  have hle := h.outpos_le
  simp only [touched, List.cons_append, List.mem_cons, List.mem_append] at hi
  rcases hi with rfl | hi | hi
  · exact hpos
  · exact (h.written_le hi).trans hpos
  · split_ifs at hi
    · have := lt_of_mem_scanned hi
      omega
    · exact absurd hi List.not_mem_nil

theorem finishTouched_le {i : ℕ} (hi : i ∈ n.finishTouched) : i ≤ n.outpos := by
  rw [finishTouched, List.mem_append] at hi
  rcases hi with hi | hi
  · split_ifs at hi
    · have := List.mem_singleton.mp hi
      omega
    · exact absurd hi List.not_mem_nil
  · have := List.mem_singleton.mp hi
    rw [this, finish]
    split_ifs <;> simp only [emit] <;> omega

end Accesses

end Norm

/-- The last turn of the loop, and what it leaves. -/
theorem Norm.exists_loop {path : List Char8} (h₀ : 0 ∉ path) :
    ∃ n, Norm.loop (4 * path.length + 8) (Norm.start path) = some n ∧ Norm.Ended path n.out ∧
      n.outpos ≤ n.pos ∧ n.outpos ≤ path.length ∧ n.path.length = path.length + 1 := by
  have hr := Norm.reads_start path
  have hsome : (Norm.loop (4 * path.length + 8) (Norm.start path)).isSome := by
    refine hr.loop (by simp) _ ?_
    simp only [Norm.measure, Norm.start, NormState.turns, List.length_append, List.length_singleton]
    omega
  obtain ⟨n, hn⟩ := Option.isSome_iff_exists.mp hsome
  obtain ⟨last, hlast, htied, hstep⟩ := Norm.exists_last_of_loop h₀ _ hr .initial hn
  obtain ⟨hended, hout, hpos, hpath⟩ := htied.done hlast h₀ hstep
  have hlt := hlast.outpos_lt
  have hle := hlast.outpos_le
  have hlength : last.path.length = path.length + 1 := by simpa using hlast.ahead.length
  refine ⟨n, hn, hended, by omega, by omega, ?_⟩
  rw [hpath, hlength]

theorem fsNormalizePath_eq {path : List Char8} (h₀ : 0 ∉ path) :
    fsNormalizePath path = some (normalized slash period path) := by
  obtain ⟨n, hn, hended, -, hout, hlength⟩ := Norm.exists_loop h₀
  rw [Norm.start] at hn
  rw [fsNormalizePath, hn, Option.map_some, Norm.cstring_finish hended h₀ (by omega)]

/-- The path that a function works on, as a normalised path. -/
theorem tempPath_eq {path : List Char8} (h₀ : 0 ∉ path) :
    tempPath path = normalized slash period (path.take 127) := by
  have h₁ : 0 ∉ strlcpy path fsMaxPathLen := fun h => h₀ (List.mem_of_mem_take h)
  rw [tempPath, fsNormalizePath_eq h₁, Option.getD_some]
  rfl

/-- **`fs_normalize_path` leaves the normalised path.** On every string the loop ends; its write position
never passes its read position, nothing beyond the terminator is accessed, and the string left is the
stack of its fields joined with `/`. A second call leaves it as it is. -/
theorem fs_normalize_path_normalized (path : List Char8) (h₀ : 0 ∉ path) :
    (∀ n, Norm.Visited path n →
      n.outpos ≤ n.pos ∧ (∀ i ∈ n.written, i ≤ n.pos) ∧ ∀ i ∈ n.touched, i ≤ path.length) ∧
    (∃ n, Norm.loop (4 * path.length + 8) (Norm.start path) = some n ∧ n.outpos ≤ n.pos ∧
      ∀ i ∈ n.finishTouched, i ≤ path.length) ∧
    fsNormalizePath path = some (normalized slash period path) ∧
    fsNormalizePath (normalized slash period path) = some (normalized slash period path) := by
  refine ⟨fun n hn => ?_, ?_, fsNormalizePath_eq h₀, ?_⟩
  · have hr := hn.reads
    exact ⟨(Nat.le_add_right _ _).trans hr.outpos_le, fun i hi => hr.written_le hi,
      fun i hi => hr.touched_le hi⟩
  · obtain ⟨n, hn, -, hpos, hout, -⟩ := Norm.exists_loop h₀
    exact ⟨n, hn, hpos, fun i hi => (Norm.finishTouched_le hi).trans hout⟩
  · rw [fsNormalizePath_eq (Norm.zero_notMem_normalized h₀), normalized_normalized]

/-- The path `/..x/./../b/`, normalised to `/b`. -/
theorem fs_normalize_path_normalized_dots :
    0 ∉ [slash, period, period, 120, slash, period, slash, period, period, slash, 98, slash] ∧
      fsNormalizePath [slash, period, period, 120, slash, period, slash, period, period, slash, 98, slash] =
        some [slash, 98] := by
  have h₀ : 0 ∉ [slash, period, period, 120, slash, period, slash, period, period, slash, 98, slash] := by
    decide
  refine ⟨h₀, ((fs_normalize_path_normalized _ h₀).2.2.1).trans ?_⟩
  decide

end I80k.Kernel

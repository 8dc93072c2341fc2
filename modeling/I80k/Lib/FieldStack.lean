import Mathlib

/-!
# Paths as stacks of fields

A path over any alphabet is split on a separator, and its fields are processed from left to right on a
stack. Empty fields and fields of one dot are skipped, a field of two dots takes the top off the stack, and
every other field is pushed. A leading separator first pushes an empty field, the root marker. The
normalised path is the stack joined with the separator.

## Main definitions

* `pushField`, `resolve`: one field, and all fields of a path, on a stack
* `normalized`: the normalised path
* `render`: the fields of a stack, each with a separator behind it
* `Normal`: the stacks that `resolve` can leave, a root marker or none below proper names

## Main results

* `resolve_append_sep`, `resolve_field`: the first field, and the last one
* `intercalate_append_singleton`: a stack joined, from its rendering
* `Normal.resolve`: what `resolve` leaves is normal
* `normalized_ne_append_sep`: a normalised path does not end in a separator
* `normalized_normalized`: a normalised path is its own normalised path
-/

namespace FieldStack

variable {α : Type} [DecidableEq α] (sep dot : α)

/-- One field on the stack, whose top is its last element. -/
def pushField (stack : List (List α)) (field : List α) : List (List α) :=
  if field = [] ∨ field = [dot] then stack
  else if field = [dot, dot] then stack.dropLast
  else stack ++ [field]

/-- The fields of a path on a stack, from left to right. -/
def resolve (stack : List (List α)) (path : List α) : List (List α) :=
  (path.splitOn sep).foldl (pushField dot) stack

/-- A leading separator pushes the root marker. -/
def root (path : List α) : List (List α) :=
  if path.head? = some sep then [[]] else []

/-- The normalised path. -/
def normalized (path : List α) : List α :=
  [sep].intercalate (resolve sep dot (root sep path) path)

/-- Every field with a separator behind it. -/
def render (stack : List (List α)) : List α :=
  stack.flatMap (· ++ [sep])

/-- A proper name: the fields that are pushed. -/
def Name (field : List α) : Prop :=
  field ≠ [] ∧ field ≠ [dot] ∧ field ≠ [dot, dot]

instance (field : List α) : Decidable (Name dot field) :=
  inferInstanceAs (Decidable (_ ∧ _ ∧ _))

/-- A root marker or none, and names without separators above it. -/
def Normal (stack : List (List α)) : Prop :=
  ∃ marker names, stack = marker ++ names ∧ (marker = [] ∨ marker = [[]]) ∧
    ∀ field ∈ names, Name dot field ∧ sep ∉ field

variable {sep dot}

/-! ## Fields -/

theorem pushField_name {field : List α} (h : Name dot field) (stack : List (List α)) :
    pushField dot stack field = stack ++ [field] := by
  obtain ⟨h₀, h₁, h₂⟩ := h
  rw [pushField, if_neg (not_or.mpr ⟨h₀, h₁⟩), if_neg h₂]

theorem foldl_pushField_names {names : List (List α)} (h : ∀ field ∈ names, Name dot field)
    (stack : List (List α)) : names.foldl (pushField dot) stack = stack ++ names := by
  induction names generalizing stack with
  | nil => simp
  | cons field names ih =>
    rw [List.foldl_cons, pushField_name (h field List.mem_cons_self),
      ih (fun f hf => h f (List.mem_cons_of_mem _ hf)), List.append_assoc, List.singleton_append]

/-- The first field of a path with a separator. -/
theorem resolve_append_sep {field : List α} (h : sep ∉ field) (stack : List (List α)) (path : List α) :
    resolve sep dot stack (field ++ sep :: path) = resolve sep dot (pushField dot stack field) path := by
  rw [resolve, List.splitOn_append_cons_self_of_not_mem h, List.foldl_cons, resolve]

/-- A path without a separator is one field. -/
theorem resolve_field {field : List α} (h : sep ∉ field) (stack : List (List α)) :
    resolve sep dot stack field = pushField dot stack field := by
  rw [resolve, List.splitOn_eq_singleton h, List.foldl_cons, List.foldl_nil]

@[simp] theorem resolve_nil (stack : List (List α)) : resolve sep dot stack [] = stack := by
  rw [resolve_field List.not_mem_nil, pushField, if_pos (Or.inl rfl)]

@[simp] theorem resolve_sep (stack : List (List α)) (path : List α) :
    resolve sep dot stack (sep :: path) = resolve sep dot stack path := by
  have h := @resolve_append_sep α _ sep dot [] List.not_mem_nil stack path
  rwa [List.nil_append, pushField, if_pos (Or.inl rfl)] at h

theorem pushField_dot (stack : List (List α)) : pushField dot stack [dot] = stack :=
  if_pos (Or.inr rfl)

theorem pushField_dotdot (stack : List (List α)) : pushField dot stack [dot, dot] = stack.dropLast := by
  rw [pushField, if_neg (by simp), if_pos rfl]

/-- A dot in front of a separator is skipped with it. -/
theorem resolve_dot_sep (h : sep ≠ dot) (stack : List (List α)) (path : List α) :
    resolve sep dot stack (dot :: sep :: path) = resolve sep dot stack path := by
  have hfirst := @resolve_append_sep α _ sep dot [dot] (by simpa using h) stack path
  rwa [pushField_dot] at hfirst

/-- Two dots in front of a separator take the top off the stack. -/
theorem resolve_dotdot_sep (h : sep ≠ dot) (stack : List (List α)) (path : List α) :
    resolve sep dot stack (dot :: dot :: sep :: path) = resolve sep dot stack.dropLast path := by
  have hfirst := @resolve_append_sep α _ sep dot [dot, dot] (by simpa using h) stack path
  rwa [pushField_dotdot] at hfirst

theorem normalized_sep (path : List α) :
    normalized sep dot (sep :: path) = [sep].intercalate (resolve sep dot [[]] path) := by
  rw [normalized, root, List.head?_cons, if_pos rfl, resolve_sep]

theorem normalized_of_head {path : List α} (h : path.head? ≠ some sep) :
    normalized sep dot path = [sep].intercalate (resolve sep dot [] path) := by
  rw [normalized, root, if_neg h]

theorem takeWhile_field {field : List α} (h : sep ∉ field) (path : List α) :
    (field ++ path).takeWhile (· ≠ sep) = field ++ path.takeWhile (· ≠ sep) := by
  refine List.takeWhile_append_of_pos fun c hc => ?_
  have hne : c ≠ sep := fun he => h (he ▸ hc)
  simpa using hne

/-! ## Joined stacks -/

section Joined

omit [DecidableEq α]

@[simp] theorem render_nil : render sep ([] : List (List α)) = [] := rfl

theorem render_append_singleton (stack : List (List α)) (field : List α) :
    render sep (stack ++ [field]) = render sep stack ++ field ++ [sep] := by
  simp [render]

theorem intercalate_append_singleton (stack : List (List α)) (field : List α) :
    [sep].intercalate (stack ++ [field]) = render sep stack ++ field := by
  induction stack with
  | nil => simp
  | cons f stack ih =>
    have hne : stack ++ [field] ≠ [] := by simp
    rw [List.cons_append, List.intercalate_cons_of_ne_nil hne, ih]
    simp [render]

/-- A rendering is empty or ends in a separator. -/
theorem render_eq_nil_or (stack : List (List α)) :
    render sep stack = [] ∨ ∃ out, render sep stack = out ++ [sep] := by
  rcases List.eq_nil_or_concat stack with rfl | ⟨stack, field, rfl⟩
  · exact Or.inl rfl
  · rw [List.concat_eq_append, render_append_singleton]
    exact Or.inr ⟨_, rfl⟩

theorem mem_of_mem_intercalate {stack : List (List α)} {c : α} (h : c ∈ [sep].intercalate stack) :
    c = sep ∨ ∃ field ∈ stack, c ∈ field := by
  rcases List.eq_nil_or_concat stack with rfl | ⟨stack, field, rfl⟩
  · exact absurd h List.not_mem_nil
  · rw [List.concat_eq_append, intercalate_append_singleton, List.mem_append, render,
      List.mem_flatMap] at h
    rcases h with ⟨f, hf, hc⟩ | hc
    · rcases List.mem_append.mp hc with hc | hc
      · exact Or.inr ⟨f, by simp [hf], hc⟩
      · exact Or.inl (List.mem_singleton.mp hc)
    · exact Or.inr ⟨field, by simp, hc⟩

end Joined

/-! ## What is left on the stack -/

/-- **Induction on paths**: a path is a single field, or a field in front of a shorter path. -/
theorem path_induction {P : List α → Prop} (field : ∀ f, sep ∉ f → P f)
    (step : ∀ f path, sep ∉ f → P path → P (f ++ sep :: path)) (path : List α) : P path := by
  induction hn : path.length using Nat.strong_induction_on generalizing path with
  | _ n ih =>
    by_cases hmem : sep ∈ path
    · obtain ⟨f, rest, rfl, hf⟩ := List.eq_append_cons_of_mem hmem
      refine step f rest hf (ih rest.length ?_ rest rfl)
      simp only [List.length_append, List.length_cons] at hn
      omega
    · exact field path hmem

/-- A property of fields that holds on the stack and for every field of the path. -/
theorem forall_mem_pushField {P : List α → Prop} {stack : List (List α)} {field : List α}
    (hstack : ∀ f ∈ stack, P f) (hfield : P field) : ∀ f ∈ pushField dot stack field, P f := by
  intro f hf
  rw [pushField] at hf
  split_ifs at hf
  · exact hstack f hf
  · exact hstack f (List.mem_of_mem_dropLast hf)
  · rcases List.mem_append.mp hf with hf | hf
    · exact hstack f hf
    · exact List.mem_singleton.mp hf ▸ hfield

/-- The characters of a path are those of its fields: a normalised path has no others. -/
theorem mem_of_mem_resolve {c : α} (path : List α) : ∀ stack field,
    field ∈ resolve sep dot stack path → c ∈ field → c ∈ path ∨ ∃ f ∈ stack, c ∈ f := by
  induction path using @path_induction α _ sep with
  | field f hf =>
    intro stack
    rw [resolve_field hf]
    refine forall_mem_pushField (fun g hg hc => Or.inr ⟨g, hg, hc⟩) (fun hc => Or.inl hc)
  | step f path hf ih =>
    intro stack field hfield hc
    rw [resolve_append_sep hf] at hfield
    rcases ih _ field hfield hc with hc | ⟨g, hg, hc⟩
    · exact Or.inl (by simp [hc])
    · have hpush := forall_mem_pushField (P := fun g => c ∈ g → c ∈ f ∨ ∃ f ∈ stack, c ∈ f)
        (fun g hg hc => Or.inr ⟨g, hg, hc⟩) (fun hc => Or.inl hc) g hg
      rcases hpush hc with hc | hc
      · exact Or.inl (by simp [hc])
      · exact Or.inr hc

theorem mem_of_mem_normalized {path : List α} {c : α} (h : c ∈ normalized sep dot path) :
    c = sep ∨ c ∈ path := by
  rcases mem_of_mem_intercalate h with hc | ⟨field, hf, hc⟩
  · exact Or.inl hc
  · rcases mem_of_mem_resolve path _ field hf hc with hc | ⟨f, hf, hc⟩
    · exact Or.inr hc
    · rw [root] at hf
      split_ifs at hf
      · exact absurd (List.mem_singleton.mp hf ▸ hc) List.not_mem_nil
      · exact absurd hf List.not_mem_nil

theorem normal_root (path : List α) : Normal sep dot (root sep path) := by
  refine ⟨root sep path, [], (List.append_nil _).symm, ?_, fun _ hf => absurd hf List.not_mem_nil⟩
  rw [root]
  split_ifs
  · exact Or.inr rfl
  · exact Or.inl rfl

theorem Normal.pushField {stack : List (List α)} (h : Normal sep dot stack) {field : List α}
    (hf : sep ∉ field) : Normal sep dot (pushField dot stack field) := by
  obtain ⟨marker, names, rfl, hmarker, hnames⟩ := h
  rw [FieldStack.pushField]
  split_ifs with h₁ h₂
  · exact ⟨marker, names, rfl, hmarker, hnames⟩
  · -- the top is a name, or the root marker itself
    rcases List.eq_nil_or_concat names with rfl | ⟨names, top, rfl⟩
    · refine ⟨[], [], ?_, Or.inl rfl, fun _ hf => absurd hf List.not_mem_nil⟩
      rcases hmarker with rfl | rfl <;> rfl
    · refine ⟨marker, names, ?_, hmarker, fun f hf => hnames f ?_⟩
      · rw [List.concat_eq_append, ← List.append_assoc, List.dropLast_concat]
      · rw [List.concat_eq_append]
        exact List.mem_append_left _ hf
  · refine ⟨marker, names ++ [field], List.append_assoc _ _ _, hmarker, fun f hmem => ?_⟩
    rcases List.mem_append.mp hmem with hmem | hmem
    · exact hnames f hmem
    · rw [List.mem_singleton.mp hmem]
      obtain ⟨h₀, h₁⟩ := not_or.mp h₁
      exact ⟨⟨h₀, h₁, h₂⟩, hf⟩

theorem Normal.resolve (path : List α) : ∀ {stack : List (List α)}, Normal sep dot stack →
    Normal sep dot (resolve sep dot stack path) := by
  induction path using @path_induction α _ sep with
  | field f hf =>
    intro stack h
    rw [resolve_field hf]
    exact h.pushField hf
  | step f path hf ih =>
    intro stack h
    rw [resolve_append_sep hf]
    exact ih (h.pushField hf)

/-- A normalised path does not end in a separator. -/
theorem normalized_ne_append_sep (path out : List α) : normalized sep dot path ≠ out ++ [sep] := by
  obtain ⟨marker, names, hstack, hmarker, hnames⟩ := (normal_root path).resolve path
  rw [normalized, hstack]
  rcases List.eq_nil_or_concat names with rfl | ⟨names, top, rfl⟩
  · rcases hmarker with rfl | rfl <;> simp
  · -- the last character is one of the top name
    obtain ⟨⟨hne, -⟩, hsep⟩ := hnames top (by simp)
    obtain ⟨c, last, hc⟩ := (List.eq_nil_or_concat top).resolve_left hne
    rw [List.concat_eq_append] at hc
    subst hc
    rw [List.concat_eq_append, ← List.append_assoc, intercalate_append_singleton, ← List.append_assoc]
    intro heq
    have hlast := List.append_inj_right' heq rfl
    exact hsep (by simp [List.singleton_inj.mp hlast])

/-! ## Idempotence -/

/-- The names of a normal stack come back when it is joined and split again. -/
theorem resolve_intercalate_names {names : List (List α)}
    (h : ∀ field ∈ names, Name dot field ∧ sep ∉ field) (stack : List (List α)) :
    resolve sep dot stack ([sep].intercalate names) = stack ++ names := by
  by_cases hne : names = []
  · subst hne
    simp
  · rw [resolve, List.splitOn_intercalate sep (fun field hf => (h field hf).2) hne]
    exact foldl_pushField_names (fun field hf => (h field hf).1) stack

theorem root_intercalate_names {names : List (List α)}
    (h : ∀ field ∈ names, Name dot field ∧ sep ∉ field) : root sep ([sep].intercalate names) = [] := by
  rw [root, if_neg]
  cases names with
  | nil => simp
  | cons field names =>
    obtain ⟨⟨hne, -⟩, hsep⟩ := h field List.mem_cons_self
    obtain ⟨c, field, rfl⟩ := List.exists_cons_of_ne_nil hne
    have hc : c ≠ sep := fun hc => hsep (hc ▸ List.mem_cons_self)
    cases names with
    | nil => simpa using hc
    | cons f names => simpa [List.intercalate_cons_cons] using hc

/-- **Normalising twice is normalising once.** -/
theorem normalized_normalized (path : List α) :
    normalized sep dot (normalized sep dot path) = normalized sep dot path := by
  obtain ⟨marker, names, hstack, hmarker, hnames⟩ := (normal_root path).resolve path
  have hpath : normalized sep dot path = [sep].intercalate (marker ++ names) := by
    rw [normalized, hstack]
  rw [hpath]
  rcases hmarker with rfl | rfl
  · rw [List.nil_append, normalized, root_intercalate_names hnames, resolve_intercalate_names hnames,
      List.nil_append]
  · by_cases hne : names = []
    · -- the root alone is the empty path, and so is its normalised path
      subst hne
      simp [normalized, root]
    · have hjoin : [sep].intercalate ([[]] ++ names) = sep :: [sep].intercalate names := by
        rw [List.singleton_append, List.intercalate_cons_of_ne_nil hne]
        rfl
      rw [hjoin, normalized_sep, resolve_intercalate_names hnames, hjoin]

end FieldStack

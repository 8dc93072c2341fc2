import Mathlib

/-!
# Runs of a partial step function

A system is given by the step that one operation takes, if the system admits the operation at
all. A run applies a sequence of operations from a state. Statements about runs are proved from
statements about one step: an invariant kept by every step holds after every run, and a property
kept exactly by the steps that meet a condition holds along exactly the runs whose steps all meet
it.

## Main definitions

* `run step s ops`: the state after the operations `ops`, if all were admitted
* `Always step P s ops`: the property `P` in every state of a run
* `Steps step C s ops`: the condition `C` at every step of a run
* `trace step s ops`: the results of a machine that admits every operation

## Main results

* `run_invariant`: a property kept by every step holds after every run
* `countP_le_of_decreases`: a run has at most as many operations as there is left to do
* `always_of_steps`: a property kept under `C` holds along the runs whose steps meet `C`
* `always_iff_steps`: if it is lost at every other step, along exactly those runs
* `steps_congr`: conditions that agree under an invariant hold along the same runs
* `trace_eq_of_bisim`: machines whose steps keep a relation and give equal results have equal traces
-/

namespace StepSystem

variable {S O : Type} (step : S → O → Option S)

/-- The state after a sequence of operations, if every operation was admitted. -/
def run (s : S) (ops : List O) : Option S :=
  ops.foldlM step s

@[simp] theorem run_nil (s : S) : run step s [] = some s := rfl

theorem run_cons (s : S) (o : O) (ops : List O) :
    run step s (o :: ops) = (step s o).bind fun s' => run step s' ops := rfl

theorem run_snoc (s : S) (ops : List O) (o : O) :
    run step s (ops ++ [o]) = (run step s ops).bind fun s' => step s' o := by
  induction ops generalizing s with
  | nil => cases h : step s o <;> simp [run, h]
  | cons a ops ih =>
    rw [List.cons_append, run_cons, run_cons]
    cases step s a with
    | none => rfl
    | some s' => exact ih s'

theorem run_append (s : S) (ops ops' : List O) :
    run step s (ops ++ ops') = (run step s ops).bind fun s' => run step s' ops' := by
  induction ops generalizing s with
  | nil => rfl
  | cons o ops ih =>
    rw [List.cons_append, run_cons, run_cons, Option.bind_assoc]
    exact congrArg _ (funext fun s' => ih s')

theorem exists_of_run_cons {s s'' : S} {o : O} {ops : List O}
    (h : run step s (o :: ops) = some s'') :
    ∃ s', step s o = some s' ∧ run step s' ops = some s'' :=
  Option.bind_eq_some_iff.mp h

/-- **The invariant rule**: what every admitted step keeps holds after every run. -/
theorem run_invariant {P : S → Prop} (hstep : ∀ s o s', P s → step s o = some s' → P s')
    {s s' : S} {ops : List O} (hs : P s) (h : run step s ops = some s') : P s' := by
  induction ops generalizing s with
  | nil => exact Option.some.inj h ▸ hs
  | cons o ops ih =>
    obtain ⟨t, ht, h⟩ := exists_of_run_cons step h
    exact ih (hstep s o t hs ht) h

/-- What the operations of a kind keep holds after every run of them. -/
theorem run_invariant_of_forall {P : S → Prop} {A : O → Prop}
    (hstep : ∀ s o s', P s → A o → step s o = some s' → P s') {s s' : S} {ops : List O} (hs : P s)
    (hops : ∀ o ∈ ops, A o) (h : run step s ops = some s') : P s' := by
  induction ops generalizing s with
  | nil => exact Option.some.inj h ▸ hs
  | cons o ops ih =>
    obtain ⟨t, ht, h⟩ := exists_of_run_cons step h
    exact ih (hstep s o t hs (hops o List.mem_cons_self) ht) (fun o' ho' => hops o' (List.mem_cons_of_mem o ho')) h

/-- **The measure rule**: if some operations leave less to do, and the others of a kind not more, a run of
that kind has at most as many of them as there is left to do at its start. -/
theorem countP_le_of_decreases {P : S → Prop} {left : S → ℕ} {A : O → Prop} {p : O → Bool}
    (hstep : ∀ s o s', P s → A o → step s o = some s' → P s' ∧ left s' + (if p o then 1 else 0) ≤ left s)
    {s s' : S} {ops : List O} (hs : P s) (hops : ∀ o ∈ ops, A o) (h : run step s ops = some s') :
    ops.countP p ≤ left s := by
  induction ops generalizing s with
  | nil => exact Nat.zero_le _
  | cons o ops ih =>
    obtain ⟨t, ht, h⟩ := exists_of_run_cons step h
    obtain ⟨hs', hle⟩ := hstep s o t hs (hops o List.mem_cons_self) ht
    have hrest := ih hs' (fun o' ho' => hops o' (List.mem_cons_of_mem o ho')) h
    rw [List.countP_cons]
    omega

/-- The property `P` in every state that a run from `s` goes through, the last included. -/
def Always (P : S → Prop) : S → List O → Prop
  | s, [] => P s
  | s, o :: ops => P s ∧ ∀ s', step s o = some s' → Always P s' ops

/-- The condition `C` on the state and the operation, at every step of a run from `s`. -/
def Steps (C : S → O → Prop) : S → List O → Prop
  | _, [] => True
  | s, o :: ops => C s o ∧ ∀ s', step s o = some s' → Steps C s' ops

variable {step}

/-- Along a run the property is decided state by state. -/
instance decidableAlways {P : S → Prop} [DecidablePred P] : ∀ s ops, Decidable (Always step P s ops)
  | s, [] => inferInstanceAs (Decidable (P s))
  | s, o :: ops =>
    match hs : step s o with
    | none => decidable_of_iff (P s) ⟨fun h => ⟨h, fun s' hs' => by simp [hs] at hs'⟩, fun h => h.1⟩
    | some s' =>
      have := decidableAlways (P := P) s' ops
      decidable_of_iff (P s ∧ Always step P s' ops)
        ⟨fun h => ⟨h.1, fun t ht => Option.some.inj (hs.symm.trans ht) ▸ h.2⟩, fun h => ⟨h.1, h.2 s' hs⟩⟩

/-- And so is the condition. -/
instance decidableSteps {C : S → O → Prop} [∀ s o, Decidable (C s o)] : ∀ s ops, Decidable (Steps step C s ops)
  | _, [] => inferInstanceAs (Decidable True)
  | s, o :: ops =>
    match hs : step s o with
    | none => decidable_of_iff (C s o) ⟨fun h => ⟨h, fun s' hs' => by simp [hs] at hs'⟩, fun h => h.1⟩
    | some s' =>
      have := decidableSteps (C := C) s' ops
      decidable_of_iff (C s o ∧ Steps step C s' ops)
        ⟨fun h => ⟨h.1, fun t ht => Option.some.inj (hs.symm.trans ht) ▸ h.2⟩, fun h => ⟨h.1, h.2 s' hs⟩⟩

theorem Always.head {P : S → Prop} {s : S} {ops : List O} (h : Always step P s ops) : P s := by
  cases ops with
  | nil => exact h
  | cons o ops => exact h.1

theorem Always.imp {P Q : S → Prop} (hpq : ∀ s, P s → Q s) {s : S} {ops : List O}
    (h : Always step P s ops) : Always step Q s ops := by
  induction ops generalizing s with
  | nil => exact hpq s h
  | cons o ops ih => exact ⟨hpq s h.1, fun s' hs' => ih (h.2 s' hs')⟩

/-- What holds along a run holds in its last state. -/
theorem Always.last {P : S → Prop} {s s' : S} {ops : List O} (h : Always step P s ops)
    (hr : run step s ops = some s') : P s' := by
  induction ops generalizing s with
  | nil => exact Option.some.inj hr ▸ h
  | cons o ops ih =>
    obtain ⟨t, ht, hr⟩ := exists_of_run_cons step hr
    exact ih (h.2 t ht) hr

/-- A property that steps keep into the states with another one, along a run with that one in every state. -/
theorem Always.of_next {I P Q : S → Prop} (hstep : ∀ s o s', I s → P s → Q s' → step s o = some s' → I s' ∧ P s')
    {s : S} {ops : List O} (hi : I s) (hp : P s) (h : Always step Q s ops) : Always step P s ops := by
  induction ops generalizing s with
  | nil => exact hp
  | cons o ops ih =>
    refine ⟨hp, fun s' hs' => ?_⟩
    obtain ⟨hi', hp'⟩ := hstep s o s' hi hp (h.2 s' hs').head hs'
    exact ih hi' hp' (h.2 s' hs')

/-- A stronger condition at every step. -/
theorem Steps.imp {C D : S → O → Prop} (hcd : ∀ s o, C s o → D s o) {s : S} {ops : List O}
    (h : Steps step C s ops) : Steps step D s ops := by
  induction ops generalizing s with
  | nil => exact trivial
  | cons o ops ih => exact ⟨hcd s o h.1, fun s' hs' => ih (h.2 s' hs')⟩

/-- A condition at every step holds at every step of both parts of a run. -/
theorem Steps.of_append {C : S → O → Prop} {s : S} {ops ops' : List O} (h : Steps step C s (ops ++ ops')) :
    Steps step C s ops ∧ ∀ s', run step s ops = some s' → Steps step C s' ops' := by
  induction ops generalizing s with
  | nil => exact ⟨trivial, fun s' hs' => Option.some.inj hs' ▸ h⟩
  | cons o ops ih =>
    refine ⟨⟨h.1, fun s' hs' => (ih (h.2 s' hs')).1⟩, fun s'' hs'' => ?_⟩
    obtain ⟨s', hs', hrun⟩ := exists_of_run_cons step hs''
    exact (ih (h.2 s' hs')).2 s'' hrun

/-- A property kept by the steps that meet `C` holds along every run whose steps all meet `C`. -/
theorem always_of_steps {P : S → Prop} {C : S → O → Prop}
    (hstep : ∀ s o s', P s → C s o → step s o = some s' → P s') {s : S} {ops : List O}
    (hs : P s) (h : Steps step C s ops) : Always step P s ops := by
  induction ops generalizing s with
  | nil => exact hs
  | cons o ops ih => exact ⟨hs, fun s' h' => ih (hstep s o s' hs h.1 h') (h.2 s' h')⟩

/-- What every step keeps holds along every run. -/
theorem always_of_invariant {P : S → Prop} (hstep : ∀ s o s', P s → step s o = some s' → P s') {s : S}
    (hs : P s) (ops : List O) : Always step P s ops := by
  induction ops generalizing s with
  | nil => exact hs
  | cons o ops ih => exact ⟨hs, fun s' h' => ih (hstep s o s' hs h')⟩

/-- **Exactness along runs**: a property that the steps meeting `C` keep and the others lose holds
along exactly the runs whose steps all meet `C`. The invariant `I` is known in the states where `P`
still holds. -/
theorem always_iff_steps {I P : S → Prop} {C : S → O → Prop}
    (hkeep : ∀ s o s', I s → P s → C s o → step s o = some s' → I s' ∧ P s')
    (hlose : ∀ s o, I s → P s → ¬ C s o → ∃ s', step s o = some s' ∧ ¬ P s')
    {s : S} {ops : List O} (hi : I s) (hs : P s) :
    Always step P s ops ↔ Steps step C s ops := by
  constructor
  · intro h
    induction ops generalizing s with
    | nil => exact trivial
    | cons o ops ih =>
      have hc : C s o := by
        by_contra hc
        obtain ⟨s', hs', hp⟩ := hlose s o hi hs hc
        exact hp (h.2 s' hs').head
      refine ⟨hc, fun s' hs' => ?_⟩
      obtain ⟨hi', hp'⟩ := hkeep s o s' hi hs hc hs'
      exact ih hi' hp' (h.2 s' hs')
  · intro h
    induction ops generalizing s with
    | nil => exact hs
    | cons o ops ih =>
      refine ⟨hs, fun s' hs' => ?_⟩
      obtain ⟨hi', hp'⟩ := hkeep s o s' hi hs h.1 hs'
      exact ih hi' hp' (h.2 s' hs')

/-- Two conditions that agree where the invariant holds, on steps that keep it, hold at every step of the
same runs. -/
theorem steps_congr {I : S → Prop} {C D : S → O → Prop} (hiff : ∀ s o, I s → (C s o ↔ D s o))
    (hkeep : ∀ s o s', I s → C s o → step s o = some s' → I s') {s : S} {ops : List O} (hi : I s) :
    Steps step C s ops ↔ Steps step D s ops := by
  induction ops generalizing s with
  | nil => exact Iff.rfl
  | cons o ops ih =>
    constructor
    · rintro ⟨hc, hrest⟩
      exact ⟨(hiff s o hi).mp hc, fun s' hs' => (ih (hkeep s o s' hi hc hs')).mp (hrest s' hs')⟩
    · rintro ⟨hd, hrest⟩
      have hc := (hiff s o hi).mpr hd
      exact ⟨hc, fun s' hs' => (ih (hkeep s o s' hi hc hs')).mpr (hrest s' hs')⟩

/-! ## Machines with results -/

section Trace

variable {S' R : Type}

/-- The results of a sequence of operations. -/
def trace (next : S → O → R × S) : S → List O → List R
  | _, [] => []
  | s, o :: ops => (next s o).1 :: trace next (next s o).2 ops

/-- **Bisimulation**: if related states give equal results and stay related, the traces are equal. -/
theorem trace_eq_of_bisim {next : S → O → R × S} {next' : S' → O → R × S'} {Rel : S → S' → Prop}
    (hstep : ∀ s s' o, Rel s s' → (next s o).1 = (next' s' o).1 ∧ Rel (next s o).2 (next' s' o).2)
    {s : S} {s' : S'} (h : Rel s s') (ops : List O) : trace next s ops = trace next' s' ops := by
  induction ops generalizing s s' with
  | nil => rfl
  | cons o ops ih =>
    obtain ⟨hres, hrel⟩ := hstep s s' o h
    rw [trace, trace, hres, ih hrel]

end Trace

end StepSystem

import I80k.Vboard.Uart

/-!
# The edges of the interrupt line

`irqManager` lowers the line and raises it again when a sample of the interrupt identification register is
different from the one before. The guest's controller sees the rising edges. What the guest does between two
samples is not seen: if the handler serves the condition of a sample and leaves, and the condition is there
again before the next one, the two samples are the same and there is no edge.

## Main definitions

* `Since`: what `irqManager` has done since the handler left its loop
* `Watched`: the UART, with that
* `Watched.NoLostEdge`: a sample that asks for an interrupt comes with an edge
* `Watched.Differs`: the first sample since then is not the one before it again

## Main results

* `Watched.Inv.step`: the steps that meet the condition
* `uart_edges_iff`: no edge is lost along exactly the runs whose steps all meet it
-/

namespace I80k.Vboard

open Kernel StepSystem

/-- What `irqManager` has done since the handler left its loop. -/
structure Since where
  /-- It has processed a sample. -/
  processed : Bool
  /-- It has processed one other than `IIR_NO_INTERRUPT`. -/
  sampled : Bool
  /-- It has raised the line, that was low. -/
  edge : Bool

/-- The UART, and what was done since the handler last left its loop, if it ever has. -/
structure Watched extends Uart where
  since : Option Since

namespace Watched

/-- What `irqManager` does at its next statement. -/
def processes (w : Watched) (x : Since) : Since :=
  match w.irq with
  | .select => x
  | .compare intr =>
    -- A sample that is raised is not processed yet.
    if intr ≠ w.lastIrq ∧ intr ≠ iirNoInterrupt then x
    else ⟨true, x.sampled || decide (intr ≠ iirNoInterrupt), x.edge⟩
  | .raise intr => ⟨true, x.sampled || decide (intr ≠ iirNoInterrupt), x.edge || !w.irqLine⟩

/-- What was done since the handler left, after a step to `u`. It leaves when it reads `IIR_NO_INTERRUPT`. -/
def observe (w : Watched) (u : Uart) : Uart.Op → Option Since
  | .handler _ => if u.handler = none then some ⟨false, false, false⟩ else w.since
  | .irq => w.since.map w.processes
  | _ => w.since

/-- One step. -/
def step (w : Watched) (op : Uart.Op) : Option Watched :=
  (w.toUart.step op).map fun u => ⟨u, w.observe u op⟩

/-- If a sample other than `IIR_NO_INTERRUPT` was processed since the handler left, then so was an edge. -/
def NoLostEdge (w : Watched) : Prop := ∀ x ∈ w.since, x.sampled → x.edge

/-- The step is not one by which the first sample since the handler left is compared, asks for an interrupt,
and is the same as the one before. -/
def Differs (w : Watched) : Uart.Op → Prop
  | .irq => ∀ intr, w.irq = .compare intr → ∀ x ∈ w.since, x.processed = false → intr ≠ iirNoInterrupt →
      intr ≠ w.lastIrq
  | _ => True

instance decidableDiffers (w : Watched) : ∀ op, Decidable (w.Differs op)
  | .irq =>
    match hat : w.irq with
    | .compare intr =>
      decidable_of_iff (∀ x ∈ w.since, x.processed = false → intr ≠ iirNoInterrupt → intr ≠ w.lastIrq)
        ⟨fun h intr' hat' => IrqAt.compare.inj (hat.symm.trans hat') ▸ h, fun h => h intr hat⟩
    | .select | .raise _ => isTrue fun intr hat' => by simp [hat] at hat'
  | .enter | .handler _ | .putchar _ | .getchar | .xmitRead _ | .xmitWrite _ | .drain | .input _ | .tick
  | .sample _ | .receive => isTrue trivial

/-! ## The invariant -/

/-- A line to raise is low, and once a sample was processed there was an edge, or the last one was
`IIR_NO_INTERRUPT`. -/
structure Inv (w : Watched) : Prop where
  raise : ∀ intr, w.irq = .raise intr → w.irqLine = false
  fresh : ∀ x ∈ w.since, x.processed = false → x.sampled = false ∧ x.edge = false
  quiet : ∀ x ∈ w.since, x.processed = true → x.edge = true ∨ w.lastIrq = iirNoInterrupt

variable {w w' : Watched} {x : Since}

/-- The handler leaves `irqManager` as it is. -/
theorem irq_handlerStep (s : Uart) (timeout : Bool) (pc : HandlerAt) :
    (s.handlerStep timeout pc).lastIrq = s.lastIrq ∧ (s.handlerStep timeout pc).irq = s.irq ∧
      (s.handlerStep timeout pc).irqLine = s.irqLine := by
  cases pc with
  | txEmpty i =>
    simp only [Uart.handlerStep]
    split
    · exact ⟨rfl, rfl, rfl⟩
    · exact ⟨rfl, rfl, rfl⟩
  | _ => exact ⟨rfl, rfl, rfl⟩

/-- So do the other steps, except that it receives a sample from `loop`. -/
theorem irq_of_other {s s' : Uart} {op : Uart.Op} (hop : op ≠ .irq) (hs : s.step op = some s') :
    s'.lastIrq = s.lastIrq ∧ ∀ intr, s'.irq = .raise intr → s.irq = .raise intr ∧ s'.irqLine = s.irqLine := by
  cases op with
  | irq => exact absurd rfl hop
  | handler timeout =>
    obtain ⟨pc, -, rfl⟩ := Option.map_eq_some_iff.mp hs
    obtain ⟨hlast, hirq, hline⟩ := irq_handlerStep s timeout pc
    exact ⟨hlast, fun intr h => ⟨hirq.symm.trans h, hline⟩⟩
  | xmitWrite task =>
    simp only [Uart.step] at hs
    split_ifs at hs
    obtain ⟨ier, -, rfl⟩ := Option.map_eq_some_iff.mp hs
    exact ⟨rfl, fun intr h => ⟨h, rfl⟩⟩
  | drain =>
    simp only [Uart.step] at hs
    split at hs
    · exact Option.some.inj hs ▸ ⟨rfl, fun intr h => ⟨h, rfl⟩⟩
    · cases hs
  -- The sample that is received replaces what was to be raised.
  | receive =>
    simp only [Uart.step] at hs
    split at hs
    · exact Option.some.inj hs ▸ ⟨rfl, fun intr h => by cases h⟩
    · cases hs
  | _ =>
    simp only [Uart.step] at hs
    split_ifs at hs
    all_goals exact Option.some.inj hs ▸ ⟨rfl, fun intr h => ⟨h, rfl⟩⟩

theorem exists_of_step {op : Uart.Op} (hs : w.step op = some w') :
    ∃ u, w.toUart.step op = some u ∧ w' = ⟨u, w.observe u op⟩ := by
  obtain ⟨u, hu, rfl⟩ := Option.map_eq_some_iff.mp hs
  exact ⟨u, hu, rfl⟩

/-! ## One step -/

/-- Steps other than those of `irqManager`: what was done since the handler left is as before, or the handler
has just left. -/
theorem Inv.other {u : Uart} {since : Option Since} {op : Uart.Op} (h : w.Inv) (hp : w.NoLostEdge)
    (hop : op ≠ .irq) (hu : w.toUart.step op = some u)
    (hsince : since = w.since ∨ since = some ⟨false, false, false⟩) :
    (⟨u, since⟩ : Watched).Inv ∧ (⟨u, since⟩ : Watched).NoLostEdge := by
  obtain ⟨hlast, hirq⟩ := irq_of_other hop hu
  have hraise : ∀ intr, u.irq = .raise intr → u.irqLine = false := by
    intro intr hat
    obtain ⟨hwas, hline⟩ := hirq intr hat
    exact hline.trans (h.raise intr hwas)
  rcases hsince with rfl | rfl
  · refine ⟨⟨hraise, h.fresh, fun x hx hprocessed => ?_⟩, hp⟩
    show x.edge = true ∨ u.lastIrq = iirNoInterrupt
    rw [hlast]
    exact h.quiet x hx hprocessed
  · refine ⟨⟨hraise, ?_, ?_⟩, ?_⟩
    · rintro x ⟨⟩ -
      exact ⟨rfl, rfl⟩
    · rintro x ⟨⟩ hprocessed
      cases hprocessed
    · rintro x ⟨⟩ hsampled
      cases hsampled

/-- A sample that is the last one again: it is `IIR_NO_INTERRUPT`, or there was an edge. -/
theorem Inv.edge_or_quiet {intr : UInt8} (h : w.Inv) (hd : w.Differs .irq) (hat : w.irq = .compare intr)
    (heq : intr = w.lastIrq) (hx : x ∈ w.since) : x.edge = true ∨ intr = iirNoInterrupt := by
  cases hprocessed : x.processed with
  | true => exact heq ▸ h.quiet x hx hprocessed
  | false =>
    by_contra hnot
    push Not at hnot
    exact hd intr hat x hx hprocessed hnot.2 heq

/-- `irqManager` is done with a sample. -/
theorem inv_of_processed {u : Uart} {f : Since → Since} (hat : u.irq = .select)
    (hf : ∀ x ∈ w.since, (f x).processed = true ∧ ((f x).edge = true ∨ u.lastIrq = iirNoInterrupt) ∧
      ((f x).sampled → (f x).edge)) :
    (⟨u, w.since.map f⟩ : Watched).Inv ∧ (⟨u, w.since.map f⟩ : Watched).NoLostEdge := by
  refine ⟨⟨fun intr hraise => ?_, fun x' hx' hnot => ?_, fun x' hx' _ => ?_⟩, fun x' hx' => ?_⟩
  · cases hat.symm.trans hraise
  all_goals
    obtain ⟨x, hx, rfl⟩ := Option.mem_map.mp hx'
    obtain ⟨hprocessed, hquiet, hedge⟩ := hf x hx
  · rw [hprocessed] at hnot
    cases hnot
  · exact hquiet
  · exact hedge

/-- The comparison of a sample. -/
theorem Inv.compare {u : Uart} {intr : UInt8} (h : w.Inv) (hp : w.NoLostEdge) (hd : w.Differs .irq)
    (hat : w.irq = .compare intr) (hu : w.toUart.irqStep (.compare intr) = some u) :
    (⟨u, w.since.map w.processes⟩ : Watched).Inv ∧ (⟨u, w.since.map w.processes⟩ : Watched).NoLostEdge := by
  simp only [Uart.irqStep] at hu
  split_ifs at hu with heq hraised
  · -- The same sample again: nothing is done, and `edge_or_quiet` says that this is right.
    cases hu
    refine inv_of_processed rfl fun x hx => ?_
    have hcase := h.edge_or_quiet hd hat heq hx
    have hproc : w.processes x = ⟨true, x.sampled || decide (intr ≠ iirNoInterrupt), x.edge⟩ := by
      simp [processes, hat, heq]
    rw [hproc]
    refine ⟨rfl, hcase, fun hsampled => ?_⟩
    rcases Bool.or_eq_true_iff.mp hsampled with hbefore | hnow
    · exact hp x hx hbefore
    · exact hcase.resolve_right (of_decide_eq_true hnow)
  · -- The line is low, and goes up next.
    cases hu
    have hproc : w.processes = id := by
      funext x
      simp [processes, hat, heq, hraised]
    rw [hproc, Option.map_id]
    exact ⟨⟨fun _ _ => rfl, h.fresh, h.quiet⟩, hp⟩
  · cases hu
    have hno : intr = iirNoInterrupt := not_not.mp hraised
    refine inv_of_processed rfl fun x hx => ?_
    have hproc : w.processes x = ⟨true, x.sampled, x.edge⟩ := by
      simp [processes, hat, hno]
    rw [hproc]
    exact ⟨rfl, .inr hno, hp x hx⟩

/-- A rising edge: the line was low. -/
theorem Inv.rise {u : Uart} {intr : UInt8} (h : w.Inv) (hat : w.irq = .raise intr)
    (hu : w.toUart.irqStep (.raise intr) = some u) :
    (⟨u, w.since.map w.processes⟩ : Watched).Inv ∧ (⟨u, w.since.map w.processes⟩ : Watched).NoLostEdge := by
  cases hu
  refine inv_of_processed rfl fun x _ => ?_
  have hedge : (w.processes x).edge = true := by
    simp [processes, hat, h.raise intr hat]
  have hproc : (w.processes x).processed = true := by
    simp [processes, hat]
  exact ⟨hproc, .inl hedge, fun _ => hedge⟩

theorem Inv.step {op : Uart.Op} (h : w.Inv) (hp : w.NoLostEdge) (hd : w.Differs op) (hs : w.step op = some w') :
    w'.Inv ∧ w'.NoLostEdge := by
  obtain ⟨u, hu, rfl⟩ := exists_of_step hs
  cases op with
  | irq =>
    simp only [Uart.step] at hu
    cases hat : w.irq with
    | select =>
      rw [hat] at hu
      cases hu
    | compare intr => exact h.compare hp hd hat (hat ▸ hu)
    | raise intr => exact h.rise hat (hat ▸ hu)
  | handler timeout =>
    refine h.other hp (by simp) hu ?_
    simp only [observe]
    split_ifs
    · exact .inr rfl
    · exact .inl rfl
  | _ => exact h.other hp (by simp) hu (.inl rfl)

/-- The first sample since the handler left is the last one before: it is processed without an edge. -/
theorem Inv.lose {op : Uart.Op} (h : w.Inv) (hd : ¬ w.Differs op) :
    ∃ w', w.step op = some w' ∧ ¬ w'.NoLostEdge := by
  cases op with
  | irq =>
    simp only [Differs] at hd
    push Not at hd
    obtain ⟨intr, hat, x, hx, hfresh, hintr, heq⟩ := hd
    have hu : w.toUart.step .irq = some { w.toUart with irq := .select, lastIrq := intr } := by
      simp [Uart.step, Uart.irqStep, hat, heq]
    refine ⟨_, congrArg (Option.map _) hu, fun hno => ?_⟩
    have hproc : w.processes x = ⟨true, true, false⟩ := by
      subst heq
      simp [processes, hat, (h.fresh x hx hfresh).2, hintr]
    have hmem : w.processes x ∈ w.since.map w.processes := Option.mem_map_of_mem _ hx
    have hedge := hno _ hmem
    rw [hproc] at hedge
    exact absurd (hedge rfl) (by decide)
  | _ => exact absurd trivial hd

end Watched

/-- **When no edge is lost.** From every state in which `irqManager` waits for a sample, in every interleaving of
the guest and the device: a sample other than `IIR_NO_INTERRUPT` that is processed after the handler has left its
loop always comes with a rising edge since then, if and only if the first sample processed after it, unless it is
`IIR_NO_INTERRUPT`, is always different from the one before. -/
theorem uart_edges_iff (s₀ : Uart) (h₀ : s₀.irq = .select) (ops : List Uart.Op) :
    Always Watched.step Watched.NoLostEdge ⟨s₀, none⟩ ops ↔ Steps Watched.step Watched.Differs ⟨s₀, none⟩ ops := by
  refine always_iff_steps (I := Watched.Inv) (fun w op w' h hp hd hs => h.step hp hd hs)
    (fun w op h _ hd => h.lose hd) ?_ ?_
  · refine ⟨fun intr hraise => ?_, ?_, ?_⟩
    · cases h₀.symm.trans hraise
    · rintro x ⟨⟩
    · rintro x ⟨⟩
  · rintro x ⟨⟩

/-- The handler leaves, and the byte that comes in afterwards is sampled as a timeout. -/
theorem uart_edges_iff_boot :
    Always Watched.step Watched.NoLostEdge ⟨Uart.boot, none⟩
      [.enter, .handler false, .input 0x42, .sample true, .receive, .irq, .irq] :=
  (uart_edges_iff Uart.boot rfl _).mpr (by decide)

/-- A byte is transmitted by the handler, that leaves, and taken off `tx_buf` before the next sample: that is
`IIR_TX_EMPTY`, as the one before. -/
theorem not_always_noLostEdge_drained :
    ¬ Always Watched.step Watched.NoLostEdge ⟨Uart.boot, none⟩
      [.putchar 0x41, .xmitRead 0, .xmitWrite 0, .tick, .sample false, .receive, .irq, .irq, .enter,
        .handler false, .handler false, .handler false, .drain, .sample false, .receive, .irq] := by
  intro h
  have hlast : ((run Watched.step ⟨Uart.boot, none⟩
      [.putchar 0x41, .xmitRead 0, .xmitWrite 0, .tick, .sample false, .receive, .irq, .irq, .enter,
        .handler false, .handler false, .handler false, .drain, .sample false, .receive, .irq]).bind
      fun w => w.since.map fun x => (x.sampled, x.edge)) = some (true, false) := by
    decide
  obtain ⟨w, hrun, hsince⟩ := Option.bind_eq_some_iff.mp hlast
  obtain ⟨x, hx, hpair⟩ := Option.map_eq_some_iff.mp hsince
  obtain ⟨hsampled, hedge⟩ := Prod.mk.inj hpair
  exact absurd ((h.last hrun x hx hsampled).symm.trans hedge) (by decide)

end I80k.Vboard

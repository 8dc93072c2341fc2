import I80k.Vboard.Uart

/-!
# The divisions of the emulated UART

The duration after which a byte that waits in `rx_buf` is a timeout comes from the divisor latch: the clock of
the UART is divided by it, and a second by the result. The latch is zero in a new device, and holds whatever a
guest writes to it. The duration is only computed behind the conditions that the guest enables with other
registers, by each read of the interrupt identification register and by `loop` after each byte that it moves.

A division by zero is a panic of the whole process.

## Main definitions

* `goDiv`: the division of Go
* `P16550.getBaudDelay`, `P16550.getTriggerDuration`: the durations
* `P16550.identify`: the interrupt identification register, with what it computes
* `Emulator`, `Emulator.step`: the device with a guest and `loop`
* `Emulator.DividesBy`: the divisor latch is not zero where a step divides by it

## Main results

* `P16550.getBaudDelay_eq_none_iff`: the only divisor that is zero is that of the latch
* `P16550.identify_eq`: the register is the one that was computed for a given timeout
* `Emulator.panicked_step`, `Emulator.exists_panicked_step`: the steps that panic
* `uart_never_divides_by_zero_iff`: no division is by zero along exactly the runs whose steps meet the condition
-/

namespace I80k.Vboard

open StepSystem

/-- `a / b`, which panics if `b` is zero. -/
def goDiv (a b : ℕ) : Option ℕ := if b = 0 then none else some (a / b)

/-- `CLOCK`. -/
def uartClock : ℕ := 4915200

/-- `time.Second`, in nanoseconds. -/
def timeSecond : ℕ := 1000000000

namespace P16550

variable (u : P16550)

/-! ## The durations -/

/-- The divisor latch. -/
def counter : ℕ := u.dmsb.toNat <<< 8 ||| u.dlsb.toNat

/-- `getBaudDelay`, if it does not panic. -/
def getBaudDelay : Option ℕ :=
  (goDiv uartClock (16 * u.counter)).bind fun baudRate => goDiv timeSecond baudRate

/-- `getTriggerDuration`. -/
def getTriggerDuration : Option ℕ := u.getBaudDelay.map (u.rxTriggerLevel * ·)

/-- The conditions in front of `time.Since(u.lastTs) > u.getTriggerDuration()`. -/
def AsksDuration : Prop :=
  ¬ (u.RxDataAvailable ∧ u.rxTriggerLevel ≤ u.rxBuf.length) ∧ u.RxLineStatus ∧ 0 < u.rxBuf.length

instance : Decidable u.AsksDuration := inferInstanceAs (Decidable (_ ∧ _))

/-- The condition of `IIR_FIFO_TIMEOUT`, if it does not panic; `since` is `time.Since(u.lastTs)`. -/
def fifoTimeout (since : ℤ) : Option Bool :=
  -- the duration is computed only if both conditions before it hold
  if u.RxLineStatus ∧ 0 < u.rxBuf.length then
    u.getTriggerDuration.map fun duration : ℕ => decide ((duration : ℤ) < since)
  else some false

/-- `interruptIdentificationRegister`, if it does not panic. -/
def identify (since : ℤ) : Option UInt8 :=
  let r : UInt8 := if u.FifoEnabled then iirFifoEnabled else 0
  if u.RxDataAvailable ∧ u.rxTriggerLevel ≤ u.rxBuf.length then some (r ||| iirRxData)
  else
    (u.fifoTimeout since).map fun timeout =>
      if timeout then r ||| iirFifoTimeout
      else if u.rxOverrun then r ||| iirLineStatus
      else if u.TxEmpty ∧ u.txBuf.length = 0 then r ||| iirTxEmpty
      else iirNoInterrupt

variable {u}

theorem counter_lt : u.counter < 2 ^ 16 := by
  apply Nat.or_lt_two_pow
  · have hmsb := u.dmsb.toNat_lt
    rw [Nat.shiftLeft_eq]
    omega
  · exact u.dlsb.toNat_lt.trans (by norm_num)

theorem counter_eq_zero_iff : u.counter = 0 ↔ u.dmsb = 0 ∧ u.dlsb = 0 := by
  rw [counter, Nat.or_eq_zero_iff, Nat.shiftLeft_eq_zero_iff, ← UInt8.toNat_inj, ← UInt8.toNat_inj]
  exact Iff.rfl

/-- **The only zero that is divided by is that of the latch**: the clock is faster than 16 times the largest
divisor, so that the baud rate is not zero. -/
theorem getBaudDelay_eq_none_iff : u.getBaudDelay = none ↔ u.dmsb = 0 ∧ u.dlsb = 0 := by
  rw [← counter_eq_zero_iff]
  by_cases hzero : u.counter = 0
  · refine iff_of_true ?_ hzero
    rw [getBaudDelay, hzero]
    rfl
  · refine iff_of_false ?_ hzero
    have hlt := u.counter_lt
    have hdivisor : 16 * u.counter ≠ 0 := by omega
    have hbaud : uartClock / (16 * u.counter) ≠ 0 := by
      apply Nat.ne_of_gt
      apply Nat.div_pos
      · rw [uartClock]
        omega
      · omega
    rw [getBaudDelay, goDiv, if_neg hdivisor, Option.bind_some, goDiv, if_neg hbaud]
    exact Option.some_ne_none _

theorem getTriggerDuration_eq_none_iff : u.getTriggerDuration = none ↔ u.dmsb = 0 ∧ u.dlsb = 0 := by
  rw [getTriggerDuration, Option.map_eq_none_iff, getBaudDelay_eq_none_iff]

/-- The register panics if it asks for the duration, and the latch is zero. -/
theorem identify_eq_none_iff (since : ℤ) :
    u.identify since = none ↔ u.AsksDuration ∧ u.dmsb = 0 ∧ u.dlsb = 0 := by
  by_cases hdata : u.RxDataAvailable ∧ u.rxTriggerLevel ≤ u.rxBuf.length
  · refine iff_of_false ?_ fun h => h.1.1 hdata
    rw [identify, if_pos hdata]
    exact Option.some_ne_none _
  · rw [identify, if_neg hdata, Option.map_eq_none_iff, fifoTimeout]
    by_cases hstatus : u.RxLineStatus ∧ 0 < u.rxBuf.length
    · have hasks : u.AsksDuration := ⟨hdata, hstatus⟩
      rw [if_pos hstatus, Option.map_eq_none_iff, getTriggerDuration_eq_none_iff, and_iff_right hasks]
    · rw [if_neg hstatus]
      exact iff_of_false (Option.some_ne_none _) fun h => hstatus h.1.2

/-- **Without a panic** the register is the one for a timeout or none. -/
theorem identify_eq {since : ℤ} {intr : UInt8} (h : u.identify since = some intr) :
    ∃ timeout, u.interruptIdentificationRegister timeout = intr := by
  by_cases hdata : u.RxDataAvailable ∧ u.rxTriggerLevel ≤ u.rxBuf.length
  · refine ⟨false, ?_⟩
    rw [identify, if_pos hdata] at h
    rw [interruptIdentificationRegister, if_pos hdata]
    exact Option.some.inj h
  · rw [identify, if_neg hdata] at h
    obtain ⟨timeout, htimeout, rfl⟩ := Option.map_eq_some_iff.mp h
    refine ⟨timeout, ?_⟩
    rw [interruptIdentificationRegister, if_neg hdata]
    cases timeout with
    | false => simp
    | true =>
      have hstatus : u.RxLineStatus ∧ 0 < u.rxBuf.length := by
        by_contra hnot
        rw [fifoTimeout, if_neg hnot] at htimeout
        cases htimeout
      simp [hstatus]

end P16550

/-! ## The device with a guest and `loop` -/

/-- The device, the position in `loop`, and whether there was a division by zero. -/
structure Emulator where
  dev : P16550
  loop : LoopAt
  panicked : Bool

namespace Emulator

/-- An access of the guest to a register, or a step of `loop`: it takes a byte off `tx_buf`, has one of input, is
woken up by its ticker, or samples the register; the sample is received. -/
inductive Op
  | read (since : ℤ) (reg : ℕ)
  | write (data : UInt8) (reg : ℕ)
  | drain
  | input (char : UInt8)
  | tick
  | sample (since : ℤ)
  | receive

variable (s : Emulator)

/-- One step. After a panic there is none. -/
def step (op : Op) : Option Emulator :=
  if s.panicked then none
  else
    match op with
    | .read since reg =>
      if reg = 2 ∧ s.dev.identify since = none then some { s with panicked := true }
      else some { s with dev := (s.dev.read false reg).2 }
    | .write data reg => some { s with dev := s.dev.write data reg }
    | .drain =>
      match s.loop, s.dev.txBuf with
      | .select, _ :: rest => some { s with dev := { s.dev with txBuf := rest }, loop := .sample }
      | _, _ => none
    | .input char => if s.loop = .select then some { s with dev := s.dev.input char, loop := .sample } else none
    | .tick => if s.loop = .select then some { s with loop := .sample } else none
    | .sample since =>
      if s.loop = .sample then
        match s.dev.identify since with
        | none => some { s with panicked := true }
        | some intr => some { s with loop := .send intr }
      else none
    | .receive =>
      match s.loop with
      | .send _ => some { s with loop := .select }
      | _ => none

/-- After `NewP16550` and `Start`. -/
def new : Emulator := ⟨P16550.new, .select, false⟩

/-- If the step computes the interrupt identification register, and that asks for the duration, the divisor latch
is not zero. -/
def DividesBy : Op → Prop
  | .read _ reg => reg = 2 → s.dev.AsksDuration → ¬ (s.dev.dmsb = 0 ∧ s.dev.dlsb = 0)
  | .sample _ => s.loop = .sample → s.dev.AsksDuration → ¬ (s.dev.dmsb = 0 ∧ s.dev.dlsb = 0)
  | _ => True

variable {s} {s' : Emulator} {op : Op}

/-- The divisor latch is what decides, where the register asks for the duration. -/
theorem identify_ne_none_iff (since : ℤ) :
    s.dev.identify since ≠ none ↔ (s.dev.AsksDuration → ¬ (s.dev.dmsb = 0 ∧ s.dev.dlsb = 0)) := by
  rw [ne_eq, P16550.identify_eq_none_iff, not_and]

/-- **A step that meets the condition** is not a panic. -/
theorem panicked_step (h : s.panicked = false) (hop : s.DividesBy op) (hs : s.step op = some s') :
    s'.panicked = false := by
  have hlive : ¬ s.panicked = true := by simp [h]
  unfold step at hs
  rw [if_neg hlive] at hs
  cases op with
  | read since reg =>
    have hquiet : ¬ (reg = 2 ∧ s.dev.identify since = none) :=
      fun hread => (identify_ne_none_iff since).mpr (hop hread.1) hread.2
    dsimp only at hs
    rw [if_neg hquiet] at hs
    obtain rfl := Option.some.inj hs
    exact h
  | write data reg =>
    obtain rfl := Option.some.inj hs
    exact h
  | drain =>
    dsimp only at hs
    split at hs
    · obtain rfl := Option.some.inj hs
      exact h
    · cases hs
  | input char =>
    dsimp only at hs
    split_ifs at hs
    obtain rfl := Option.some.inj hs
    exact h
  | tick =>
    dsimp only at hs
    split_ifs at hs
    obtain rfl := Option.some.inj hs
    exact h
  | sample since =>
    dsimp only at hs
    split_ifs at hs with hloop
    obtain ⟨intr, hintr⟩ := Option.ne_none_iff_exists'.mp ((identify_ne_none_iff since).mpr (hop hloop))
    rw [hintr] at hs
    obtain rfl := Option.some.inj hs
    exact h
  | receive =>
    dsimp only at hs
    split at hs
    · obtain rfl := Option.some.inj hs
      exact h
    · cases hs

/-- **A step that does not** divides by zero. -/
theorem exists_panicked_step (h : s.panicked = false) (hop : ¬ s.DividesBy op) :
    ∃ s', s.step op = some s' ∧ ¬ s'.panicked = false := by
  have hlive : ¬ s.panicked = true := by simp [h]
  refine ⟨{ s with panicked := true }, ?_, by simp⟩
  unfold step
  rw [if_neg hlive]
  cases op with
  | read since reg =>
    have hread : reg = 2 ∧ s.dev.identify since = none := by
      simp only [DividesBy, Classical.not_imp, not_not] at hop
      exact ⟨hop.1, (P16550.identify_eq_none_iff since).mpr hop.2⟩
    exact if_pos hread
  | sample since =>
    simp only [DividesBy, Classical.not_imp, not_not] at hop
    obtain ⟨hloop, hasks⟩ := hop
    dsimp only
    rw [if_pos hloop, (P16550.identify_eq_none_iff since).mpr hasks]
  | write => exact absurd trivial hop
  | drain => exact absurd trivial hop
  | input => exact absurd trivial hop
  | tick => exact absurd trivial hop
  | receive => exact absurd trivial hop

end Emulator

/-- **The divisions of the emulated UART, exactly.** In every run of accesses of a guest and steps of `loop`, from
a new device and with whatever the clock says: no division is by zero if and only if the divisor latch is not zero
at each step that computes the interrupt identification register and finds, with its interrupt enabled, bytes in
`rx_buf` that are not reported as `IIR_RX_DATA`. -/
theorem uart_never_divides_by_zero_iff (ops : List Emulator.Op) :
    Always Emulator.step (fun s => s.panicked = false) Emulator.new ops ↔
      Steps Emulator.step Emulator.DividesBy Emulator.new ops := by
  apply always_iff_steps (I := fun _ => True)
  · intro s op s' _ hlive hop hs
    exact ⟨trivial, Emulator.panicked_step hlive hop hs⟩
  · intro s op _ hlive hop
    exact Emulator.exists_panicked_step hlive hop
  · trivial
  · rfl

/-- The accesses of `uart_initialize` up to the enabling of the interrupts, with a byte that comes in before the
divisor is written: the sample of `loop` panics. -/
theorem not_never_divides_initialize :
    ¬ Always Emulator.step (fun s => s.panicked = false) Emulator.new
      [.write 0xC7 2, .write 0x03 3, .write 0x05 1, .input 0x41, .sample 0] := by
  intro h
  have hrun : (run Emulator.step Emulator.new
      [.write 0xC7 2, .write 0x03 3, .write 0x05 1, .input 0x41, .sample 0]).map Emulator.panicked = some true := by
    decide
  obtain ⟨s, hs, hpanicked⟩ := Option.map_eq_some_iff.mp hrun
  rw [h.last hs] at hpanicked
  cases hpanicked

end I80k.Vboard

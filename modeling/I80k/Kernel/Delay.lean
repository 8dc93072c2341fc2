import Mathlib

/-!
# Busy waits

`boards/delay.c` measures how long a loop takes, with a timer that counts down: the nanoseconds of a tick by the
number of ticks, for 20000 turns. A wait is then so many turns as its time has nanoseconds, divided by those of a
turn.

An `unsigned long` has 32 bits. A machine that takes less time for the 20000 turns than they are nanoseconds has no
nanoseconds for a turn.

## Main definitions

* `Board`: the boards, with the frequencies of their timers
* `delayCalibrate`: the nanoseconds of a turn
* `loopCount`, `udelay`: the turns of a wait
* `Board.WaitsExactly`: a wait has the turns that it should have

## Main results

* `toNat_delayCalibrate`: the calibration does not overflow
* `udelay_exact_iff`: when a wait is exact
-/

namespace I80k.Kernel

/-- The boards. -/
inductive Board
  | vboard
  | rev2
  | rev3
  deriving DecidableEq

/-- The frequency of the timers of a board. -/
def Board.timerFreq : Board → UInt32
  | .vboard => 1193182
  | .rev2 => 1250000
  | .rev3 => 2457600

/-- `p8254_ns_per_tick`, for the frequency of the timer. -/
def p8254NsPerTick (freq : UInt32) : UInt32 := 1000000000 / freq

/-- `CLOCK_CAL_LOOPS`. -/
def clockCalLoops : UInt32 := 20000

/-- `delay_calibrate`, with the value of the timer after the loop: `ns_per_loop`. -/
def delayCalibrate (freq : UInt32) (val : UInt16) : UInt32 :=
  ((65535 - val.toUInt32) * p8254NsPerTick freq) / clockCalLoops

/-- The division in `udelay`, if it is not by zero. -/
def loopCount (nsPerLoop delay : UInt32) : Option UInt32 :=
  if nsPerLoop = 0 then none else some ((delay * 1000) / nsPerLoop)

/-- `udelay`: the number of turns that it waits for. -/
def udelay (nsPerLoop delay : UInt32) : Option UInt32 :=
  (loopCount nsPerLoop delay).map fun loops => if loops = 0 then 1 else loops

namespace Board

variable (b : Board) (val : UInt16) (delay : UInt32)

/-- After the calibration, a wait does not divide by zero, and the number of turns is its time in nanoseconds,
divided by that of a turn. -/
def WaitsExactly : Prop :=
  ∃ loops, loopCount (delayCalibrate b.timerFreq val) delay = some loops ∧
    loops.toNat = delay.toNat * 1000 / (delayCalibrate b.timerFreq val).toNat

/-- The nanoseconds of a tick. -/
def nsPerTick : Board → ℕ
  | .vboard => 838
  | .rev2 => 800
  | .rev3 => 406

/-- The last value of the timer that leaves a nanosecond for a turn. -/
def lastReading : Board → ℕ
  | .vboard => 65511
  | .rev2 => 65510
  | .rev3 => 65485

theorem toNat_p8254NsPerTick : (p8254NsPerTick b.timerFreq).toNat = b.nsPerTick := by
  cases b <;> rfl

variable {b} {val} {delay}

/-- The ticks and the nanoseconds of a tick are few. -/
theorem ticks_mul_nsPerTick_le : (65535 - val.toNat) * b.nsPerTick ≤ 65535 * 838 := by
  have hns : b.nsPerTick ≤ 838 := by
    cases b <;> decide
  exact Nat.mul_le_mul (Nat.sub_le _ _) hns

/-- **The calibration** does not overflow. -/
theorem toNat_delayCalibrate :
    (delayCalibrate b.timerFreq val).toNat = (65535 - val.toNat) * b.nsPerTick / 20000 := by
  have hval : val.toNat ≤ 65535 := Nat.le_of_lt_succ val.toNat_lt
  have hticks : (65535 - val.toUInt32 : UInt32).toNat = 65535 - val.toNat := by
    rw [UInt32.toNat_sub_of_le]
    · rfl
    · rw [UInt32.le_iff_toNat_le]
      exact hval
  have hproduct : (65535 - val.toNat) * b.nsPerTick ≤ 65535 * 838 := ticks_mul_nsPerTick_le
  rw [delayCalibrate, UInt32.toNat_div, UInt32.toNat_mul, hticks, toNat_p8254NsPerTick, Nat.mod_eq_of_lt (by omega)]
  rfl

/-- A turn takes less than `2 ^ 32` nanoseconds, by far. -/
theorem toNat_delayCalibrate_le : (delayCalibrate b.timerFreq val).toNat ≤ 2745 := by
  have hproduct : (65535 - val.toNat) * b.nsPerTick ≤ 65535 * 838 := ticks_mul_nsPerTick_le
  rw [toNat_delayCalibrate]
  omega

/-- The calibration leaves nothing for the values after the last one. -/
theorem delayCalibrate_ne_zero_iff : delayCalibrate b.timerFreq val ≠ 0 ↔ val.toNat ≤ b.lastReading := by
  have hzero : delayCalibrate b.timerFreq val = 0 ↔ (65535 - val.toNat) * b.nsPerTick / 20000 = 0 := by
    rw [← UInt32.toNat_inj, toNat_delayCalibrate]
    rfl
  rw [ne_eq, hzero]
  cases b with
  | vboard =>
    simp only [nsPerTick, lastReading]
    omega
  | rev2 =>
    simp only [nsPerTick, lastReading]
    omega
  | rev3 =>
    simp only [nsPerTick, lastReading]
    omega

end Board

/-- The turns of a wait, with the product modulo `2 ^ 32`. -/
theorem loopCount_eq {nsPerLoop : UInt32} (hpos : nsPerLoop ≠ 0) (delay : UInt32) :
    ∃ loops, loopCount nsPerLoop delay = some loops ∧
      loops.toNat = delay.toNat * 1000 % 2 ^ 32 / nsPerLoop.toNat := by
  refine ⟨delay * 1000 / nsPerLoop, if_neg hpos, ?_⟩
  rw [UInt32.toNat_div, UInt32.toNat_mul]
  rfl

/-- A quotient of what is left of a number that is too large is not the one of the number. -/
theorem mod_div_lt_div {d n : ℕ} (hd : 2 ^ 32 ≤ d) (hpos : 0 < n) (hn : n ≤ 2 ^ 32) : d % 2 ^ 32 / n < d / n := by
  calc d % 2 ^ 32 / n
    _ < d % 2 ^ 32 / n + 1 := Nat.lt_succ_self _
    _ = (d % 2 ^ 32 + n) / n := (Nat.add_div_right _ hpos).symm
    _ ≤ d / n := by
      apply Nat.div_le_div_right
      omega

/-- **Busy waits, exactly.** On every board, for every value of the timer at the calibration: a wait divides by a
number other than zero, and has the turns that it should have, if and only if the timer had counted enough ticks by
then, and the wait is of 4294967 microseconds at most. -/
theorem udelay_exact_iff (b : Board) (val : UInt16) (delay : UInt32) :
    b.WaitsExactly val delay ↔ val.toNat ≤ b.lastReading ∧ delay.toNat ≤ 4294967 := by
  rw [← Board.delayCalibrate_ne_zero_iff]
  by_cases hzero : delayCalibrate b.timerFreq val = 0
  · apply iff_of_false
    · rintro ⟨loops, hloops, -⟩
      rw [loopCount, if_pos hzero] at hloops
      cases hloops
    · exact fun h => h.1 hzero
  · have hpos : 0 < (delayCalibrate b.timerFreq val).toNat := by
      apply Nat.pos_of_ne_zero
      intro hnat
      exact hzero (UInt32.toNat_inj.mp hnat)
    have hsmall : (delayCalibrate b.timerFreq val).toNat ≤ 2745 := Board.toNat_delayCalibrate_le
    obtain ⟨loops, hloops, hcount⟩ := loopCount_eq hzero delay
    simp only [Board.WaitsExactly, hloops, Option.some.injEq, exists_eq_left', hcount, ne_eq, hzero,
      not_false_eq_true, true_and]
    rcases Nat.lt_or_ge (delay.toNat * 1000) (2 ^ 32) with hlt | hge
    · rw [Nat.mod_eq_of_lt hlt]
      apply iff_of_true rfl
      omega
    · have hless := mod_div_lt_div hge hpos (by omega)
      apply iff_of_false hless.ne
      omega

/-- A fast machine: the timer has not counted yet, and the wait of `cfi_toggle_wait` divides by zero. -/
theorem not_waitsExactly_fast : loopCount (delayCalibrate Board.vboard.timerFreq 65535) 1 = none ∧
    ¬ Board.vboard.WaitsExactly 65535 1 := by
  have hnone : loopCount (delayCalibrate Board.vboard.timerFreq 65535) 1 = none := by
    decide
  refine ⟨hnone, ?_⟩
  rintro ⟨loops, hloops, -⟩
  rw [hnone] at hloops
  cases hloops

end I80k.Kernel

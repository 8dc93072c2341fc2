import I80k.Kernel.Clk

/-!
# The deadline of a sleep

`clk_nanosleep` takes signed numbers of 64 bits, and computes an unsigned deadline of 64 bits from them. What
it computes is the deadline modulo `2 ^ 64`: a deadline from `2 ^ 64` on is taken for an earlier one, and a
negative one for one that is centuries ahead, unless what is left of it is in the past too.

## Main definitions

* `Clk.exactDeadline`: the deadline that is asked for, as an integer
* `Clk.SleepsExactly`: the call fails, or sleeps until that deadline, or returns at once if it has passed

## Main results

* `Clk.toNat_deadlineOf`: what the call computes
* `Clk.exists_sleepOn`: a task goes to sleep on `blocked`
* `clk_nanosleep_exact_iff`: when the call sleeps exactly
-/

namespace I80k.Kernel

namespace Clk

variable {c : Clk} {cur : TaskId}

/-- The deadline that is asked for. -/
def exactDeadline (c : Clk) (flags : Int16) (request : Timespec) : ℤ :=
  (if timerAbstime flags then 0 else (c.nowNs.toNat : ℤ)) + request.tvSec.toInt * 10 ^ 9 + request.tvNsec.toInt

/-- The call returns an error; or it returns 0 if the deadline has passed, and else the task sleeps on
`blocked` until then. -/
def SleepsExactly (c : Clk) (flags : Int16) (request : Option Timespec) (remain : Bool) : Prop :=
  (∃ err < 0, c.clkNanosleep .monotonic flags request remain = some (.returned err)) ∨
  ∃ r, request = some r ∧
    (c.exactDeadline flags r ≤ c.nowNs.toNat →
      c.clkNanosleep .monotonic flags request remain = some (.returned 0)) ∧
    (c.nowNs.toNat < c.exactDeadline flags r → ∃ cur k, c.current = some cur ∧
      c.clkNanosleep .monotonic flags request remain = some (.slept k) ∧ cur ∈ k.queues blocked ∧
      (k.deadline cur).toNat = c.exactDeadline flags r)

/-! ## The arithmetic -/

theorem toBitVec_ofInt (x : Int64) : x.toBitVec = BitVec.ofInt 64 x.toInt := BitVec.ofInt_toInt.symm

theorem toBitVec_sToNs (s : Int64) : (sToNs s).toBitVec = BitVec.ofInt 64 (s.toInt * 10 ^ 9) := by
  rw [sToNs, Int64.toBitVec_mul, toBitVec_ofInt s, BitVec.ofInt_mul]
  rfl

theorem toBitVec_deadlineOf (flags : Int16) (request : Timespec) :
    (c.deadlineOf flags request).toBitVec = BitVec.ofInt 64 (c.exactDeadline flags request) := by
  have hnow : c.nowNs.toBitVec = BitVec.ofInt 64 (c.nowNs.toNat : ℤ) := by
    rw [BitVec.ofInt_natCast]
    exact (BitVec.ofNat_toNat 64 c.nowNs.toBitVec).symm.trans (by simp)
  rw [deadlineOf, exactDeadline]
  split_ifs with habs
  · rw [Int64.toBitVec_toUInt64, Int64.toBitVec_add, toBitVec_sToNs, toBitVec_ofInt request.tvNsec,
      ← BitVec.ofInt_add, zero_add]
  · rw [UInt64.toBitVec_add, UInt64.toBitVec_add, Int64.toBitVec_toUInt64, Int64.toBitVec_toUInt64,
      toBitVec_sToNs, toBitVec_ofInt request.tvNsec, hnow, ← BitVec.ofInt_add, ← BitVec.ofInt_add]

/-- **The deadline that is computed.** -/
theorem toNat_deadlineOf (flags : Int16) (request : Timespec) :
    ((c.deadlineOf flags request).toNat : ℤ) = c.exactDeadline flags request % 2 ^ 64 := by
  rw [← UInt64.toNat_toBitVec, toBitVec_deadlineOf, BitVec.toNat_ofInt, Int.toNat_of_nonneg]
  · norm_num
  · exact Int.emod_nonneg _ (by norm_num)

/-! ## Going to sleep -/

theorem exists_schedule (s : Sched) : ∃ s', s.schedule = some s' := by
  cases hcur : s.current with
  | none => exact ⟨s, by simp [Sched.schedule, hcur]⟩
  | some prev =>
    cases hready : s.ready with
    | nil => exact ⟨s, by simp [Sched.schedule, hcur, hready]⟩
    | cons next ready =>
      simp only [Sched.schedule, hcur, hready, Option.bind_eq_bind]
      -- the task that is put back has a place among those that are ready
      split_ifs
      · obtain ⟨ready', hput, -⟩ :=
          Sched.putReady_spec (({ s with ready, current := some next } : Sched).setState prev .ready) prev
        exact ⟨_, by rw [hput, Option.bind_some]⟩
      · exact ⟨_, rfl⟩

/-- The current task goes to sleep, with its deadline. -/
theorem exists_sleepOn (hcur : c.current = some cur) (d : UInt64) :
    ∃ k, c.sleepOn blocked d = some k ∧ cur ∈ k.queues blocked ∧ k.deadline cur = d := by
  obtain ⟨s, hs⟩ := exists_schedule ((c.modify cur fun task =>
    { task with state := .waiting, waitState := asPid d }).listAdd blocked cur)
  have hsleep : c.schedulerSleepOn (some blocked) (asPid d) = some s := by
    rw [Sched.schedulerSleepOn, hcur]
    exact hs
  refine ⟨{ c with toSched := s, deadline := Function.update c.deadline cur d }, ?_, ?_, Function.update_self _ _ _⟩
  · rw [Clk.sleepOn, hcur, Option.bind_some, hsleep]
    rfl
  · show cur ∈ s.queues blocked
    rw [Sched.sleepOn_queues hcur hsleep, Function.update_self]
    exact List.mem_append_right _ List.mem_cons_self

/-- What the call does with a request. -/
theorem clkNanosleep_some (flags : Int16) (request : Timespec) :
    c.clkNanosleep .monotonic flags (some request) true =
      if c.deadlineOf flags request ≤ c.nowNs then some (.returned 0)
      else (c.sleepOn blocked (c.deadlineOf flags request)).map .slept := by
  simp [clkNanosleep]

theorem clkNanosleep_invalid {flags : Int16} {request : Option Timespec} {remain : Bool}
    (h : request = none ∨ remain = false) :
    c.clkNanosleep .monotonic flags request remain = some (.returned errInval) := by
  rcases h with rfl | rfl
  · rfl
  · cases request
    · rfl
    · simp [clkNanosleep]

/-- A call with both pointers: it is the deadline that is computed that counts. -/
theorem sleepsExactly_some_iff (hcur : c.current = some cur) (flags : Int16) (request : Timespec) :
    c.SleepsExactly flags (some request) true ↔
      (c.exactDeadline flags request ≤ c.nowNs.toNat →
        ((c.deadlineOf flags request).toNat : ℤ) ≤ c.nowNs.toNat) ∧
      (c.nowNs.toNat < c.exactDeadline flags request →
        ((c.deadlineOf flags request).toNat : ℤ) = c.exactDeadline flags request) := by
  have hcall := @clkNanosleep_some c flags request
  obtain ⟨k, hsleep, hmem, hdeadline⟩ := exists_sleepOn hcur (c.deadlineOf flags request)
  have hle : c.deadlineOf flags request ≤ c.nowNs ↔
      ((c.deadlineOf flags request).toNat : ℤ) ≤ c.nowNs.toNat := by
    rw [UInt64.le_iff_toNat_le, Int.ofNat_le]
  rw [hsleep, Option.map_some] at hcall
  constructor
  · rintro (⟨err, hneg, herr⟩ | ⟨r, hr, hpast, hahead⟩)
    · -- with both pointers there is no error
      rw [hcall] at herr
      split_ifs at herr
      · obtain rfl := Nanosleep.returned.inj (Option.some.inj herr)
        exact absurd hneg (by decide)
      · exact absurd (Option.some.inj herr) (by simp)
    · obtain rfl := Option.some.inj hr
      refine ⟨fun hD => ?_, fun hD => ?_⟩
      · have hzero := hpast hD
        rw [hcall] at hzero
        split_ifs at hzero with hd
        · exact hle.mp hd
        · exact absurd (Option.some.inj hzero) (by simp)
      · obtain ⟨cur', k', hcur', hslept, -, hexact⟩ := hahead hD
        rw [hcall] at hslept
        split_ifs at hslept
        · exact absurd (Option.some.inj hslept) (by simp)
        · obtain rfl := Nanosleep.slept.inj (Option.some.inj hslept)
          obtain rfl := Option.some.inj (hcur.symm.trans hcur')
          rw [← hexact, hdeadline]
  · rintro ⟨hpast, hahead⟩
    refine .inr ⟨request, rfl, fun hD => ?_, fun hD => ⟨cur, k, hcur, ?_, hmem, ?_⟩⟩
    · rw [hcall, if_pos (hle.mpr (hpast hD))]
    · have hlater : ¬ c.deadlineOf flags request ≤ c.nowNs := by
        rw [hle, hahead hD]
        exact not_le.mpr hD
      rw [hcall, if_neg hlater]
    · rw [hdeadline]
      exact hahead hD

end Clk

/-- **Sleep deadlines, exactly.** For every time and every request, relative or absolute, a call of a task
fails, sleeps until the deadline asked for, or returns at once if it has passed, if and only if one of the
pointers is null, or the deadline is below `2 ^ 64` and, if it is negative, has passed also modulo
`2 ^ 64`. -/
theorem clk_nanosleep_exact_iff (c : Clk) (cur : TaskId) (hcur : c.current = some cur) (flags : Int16)
    (request : Option Timespec) (remain : Bool) :
    c.SleepsExactly flags request remain ↔
      request = none ∨ remain = false ∨ ∃ r, request = some r ∧ c.exactDeadline flags r < 2 ^ 64 ∧
        (c.exactDeadline flags r < 0 → c.exactDeadline flags r % 2 ^ 64 ≤ c.nowNs.toNat) := by
  by_cases hinvalid : request = none ∨ remain = false
  · refine iff_of_true (.inl ⟨errInval, by decide, Clk.clkNanosleep_invalid hinvalid⟩) ?_
    exact hinvalid.imp_right .inl
  · obtain ⟨hsome, hremain⟩ := not_or.mp hinvalid
    obtain ⟨r, rfl⟩ := Option.ne_none_iff_exists'.mp hsome
    obtain rfl : remain = true := by simpa using hremain
    have hnow : c.nowNs.toNat < 2 ^ 64 := c.nowNs.toNat_lt
    -- what is computed is what is asked for, modulo 2 ^ 64
    rw [Clk.sleepsExactly_some_iff hcur, Clk.toNat_deadlineOf]
    constructor
    · rintro ⟨hpast, hahead⟩
      refine .inr (.inr ⟨r, rfl, ?_, fun hneg => hpast (by omega)⟩)
      -- a deadline from `2 ^ 64` on is ahead, and is not computed
      by_contra hge
      have hmod := hahead (by omega)
      omega
    · rintro (hnone | hfalse | ⟨r', hr, hlt, hneg⟩)
      · exact absurd hnone (by simp)
      · exact absurd hfalse (by simp)
      · obtain rfl := Option.some.inj hr
        refine ⟨fun hD => ?_, fun hD => Int.emod_eq_of_lt (by omega) hlt⟩
        rcases lt_or_ge (c.exactDeadline flags r) 0 with hlow | hhigh
        · exact hneg hlow
        · rw [Int.emod_eq_of_lt hhigh hlt]
          exact hD

/-- A task with a clock at a time. -/
def clkAt (now : UInt64) : Clk where
  toSched := schedulerInitialize (fun _ => ⟨.ready, 0, 0, 0, 0, 0⟩) 0
  clockIncMs := 10
  ticks := 0
  nowNs := now
  deadline := fun _ => 0

/-- A relative request of a second and a half. -/
theorem clk_nanosleep_exact_second : (clkAt 7).SleepsExactly 0 (some ⟨1, 500000000⟩) true := by
  rw [clk_nanosleep_exact_iff (clkAt 7) 0 rfl]
  exact .inr (.inr ⟨_, rfl, by decide, by decide⟩)

/-- A request for a second ago, at the start of the clock: the deadline has passed, and the task sleeps
until the time `2 ^ 64 - 10 ^ 9`. -/
theorem not_sleepsExactly_negative :
    (clkAt 0).exactDeadline 0 ⟨-1, 0⟩ = -10 ^ 9 ∧
      (∃ k, (clkAt 0).clkNanosleep .monotonic 0 (some ⟨-1, 0⟩) true = some (.slept k) ∧
        (k.deadline 0).toNat = 2 ^ 64 - 10 ^ 9) ∧
      ¬ (clkAt 0).SleepsExactly 0 (some ⟨-1, 0⟩) true := by
  have hD : (clkAt 0).exactDeadline 0 ⟨-1, 0⟩ = -10 ^ 9 := by decide
  obtain ⟨k, hsleep, -, hdeadline⟩ := Clk.exists_sleepOn (c := clkAt 0) rfl ((clkAt 0).deadlineOf 0 ⟨-1, 0⟩)
  have hahead : ¬ (clkAt 0).deadlineOf 0 ⟨-1, 0⟩ ≤ (clkAt 0).nowNs := by decide
  refine ⟨hD, ⟨k, ?_, ?_⟩, fun h => ?_⟩
  · rw [Clk.clkNanosleep_some, if_neg hahead, hsleep]
    rfl
  · rw [hdeadline]
    decide
  · have hpast := ((Clk.sleepsExactly_some_iff rfl 0 ⟨-1, 0⟩).mp h).1 (by rw [hD]; decide)
    exact absurd hpast (by decide)

end I80k.Kernel

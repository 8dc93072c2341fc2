import I80k.Lib.Slice

/-!
# NOR flash memory

A chip takes commands as writes to two of its addresses, of which it compares the low 15 bits. Programming
a byte clears bits of it, and erasing sets all the bits of a sector. While the chip is at work it ignores
writes, and each read returns a status, with a bit that toggles from one read to the next. How many reads
that takes may depend on anything.

A sector that is erased and then programmed byte by byte holds what was programmed: one range of the
contents is replaced, and two ranges next to each other are one.

## Main definitions

* `NorFlash.Chip`, `NorFlash.State`: a chip, and the state it is in
* `NorFlash.Chip.write`, `NorFlash.Chip.read`: write and read cycles
* `NorFlash.Holds`: the chip waits for a command
* `NorFlash.overwrite`, `NorFlash.window`: a range of the contents

## Main results

* `NorFlash.Chip.program_eq`, `NorFlash.Chip.erase_eq`: the commands
* `NorFlash.Chip.busy_of_toggles`, `NorFlash.Chip.done_of_not_toggles`: what two reads tell
* `NorFlash.overwrite_append`, `NorFlash.window_overwrite`: ranges of the contents
-/

namespace NorFlash

open FlatArray

/-- The command cycles that the chip has seen. -/
inductive Mode
  | ready
  | unlock
  | command
  | program
  | erase
  | eraseUnlock
  | eraseCommand
  deriving DecidableEq

/-- The state of a chip. -/
structure State where
  /-- The contents. -/
  cells : ℕ → UInt8
  mode : Mode
  /-- Reads return the identifiers of the chip. -/
  identifies : Bool
  /-- The number of reads until the chip has done its work. -/
  busy : ℕ
  /-- The bit that the next status has. -/
  toggle : Bool

/-- A chip: the size of its sectors, its identifiers, and how long it is at work. -/
structure Chip where
  sectorSize : ℕ
  vendor : UInt8
  device : UInt8
  duration : State → ℕ

/-- The cycle is one of a command at the address. -/
def IsCommand (reg : ℕ) (byte : UInt8) (a : ℕ) (d : UInt8) : Prop := a % 2 ^ 15 = reg ∧ d = byte

instance (reg : ℕ) (byte : UInt8) (a : ℕ) (d : UInt8) : Decidable (IsCommand reg byte a d) :=
  inferInstanceAs (Decidable (_ ∧ _))

/-- The contents with one byte programmed. -/
def programByte (f : ℕ → UInt8) (a : ℕ) (d : UInt8) : ℕ → UInt8 := Function.update f a (f a &&& d)

/-- The contents with one sector erased. -/
def eraseSector (size : ℕ) (f : ℕ → UInt8) (a : ℕ) : ℕ → UInt8 :=
  fun b => if b / size = a / size then 0xFF else f b

namespace Chip

variable (c : Chip)

/-- A write cycle. -/
def write (s : State) (a : ℕ) (d : UInt8) : State :=
  -- a write cycle while the chip is at work is lost
  if s.busy ≠ 0 then s
  else
    match s.mode with
    | .ready =>
      if IsCommand 0x5555 0xAA a d then { s with mode := .unlock }
      else if d = 0xF0 then { s with identifies := false }
      else s
    | .unlock => { s with mode := if IsCommand 0x2AAA 0x55 a d then .command else .ready }
    | .command =>
      if IsCommand 0x5555 0xA0 a d then { s with mode := .program }
      else if IsCommand 0x5555 0x80 a d then { s with mode := .erase }
      else if IsCommand 0x5555 0x90 a d then { s with mode := .ready, identifies := true }
      else if IsCommand 0x5555 0xF0 a d then { s with mode := .ready, identifies := false }
      else { s with mode := .ready }
    -- the address is not one of a command: the byte is programmed wherever the cycle goes
    | .program => { s with mode := .ready, cells := programByte s.cells a d, busy := c.duration s }
    | .erase => { s with mode := if IsCommand 0x5555 0xAA a d then .eraseUnlock else .ready }
    | .eraseUnlock => { s with mode := if IsCommand 0x2AAA 0x55 a d then .eraseCommand else .ready }
    | .eraseCommand =>
      if d = 0x30 then
        { s with mode := .ready, cells := eraseSector c.sectorSize s.cells a, busy := c.duration s }
      else if IsCommand 0x5555 0x10 a d then
        { s with mode := .ready, cells := fun _ => 0xFF, busy := c.duration s }
      else { s with mode := .ready }

/-- What the chip returns when it is not at work. -/
def value (s : State) (a : ℕ) : UInt8 :=
  if s.identifies then (if a % 2 = 0 then c.vendor else c.device) else s.cells a

/-- The status that the chip returns while it is at work. -/
def status (s : State) : UInt8 := if s.toggle then 0x40 else 0

/-- A read cycle. -/
def read (s : State) (a : ℕ) : UInt8 × State :=
  if s.busy = 0 then (c.value s a, s)
  else (status s, { s with busy := s.busy - 1, toggle := !s.toggle })

end Chip

/-- The chip waits for a command, and reads return its contents. -/
structure Holds (f : ℕ → UInt8) (s : State) : Prop where
  cells : s.cells = f
  mode : s.mode = .ready
  identifies : s.identifies = false
  busy : s.busy = 0

/-- The chip waits for a command once its work is done. -/
structure WillHold (f : ℕ → UInt8) (s : State) : Prop where
  cells : s.cells = f
  mode : s.mode = .ready
  identifies : s.identifies = false

theorem Holds.self {f : ℕ → UInt8} {s : State} (h : Holds f s) : Holds s.cells s :=
  ⟨rfl, h.mode, h.identifies, h.busy⟩

theorem WillHold.holds {f : ℕ → UInt8} {s : State} (h : WillHold f s) (hbusy : s.busy = 0) : Holds f s :=
  ⟨h.cells, h.mode, h.identifies, hbusy⟩

/-! ## Commands -/

namespace Chip

variable {c : Chip} {f : ℕ → UInt8} {s : State} {reg0 reg1 : ℕ}

section Commands

variable (hreg0 : reg0 % 2 ^ 15 = 0x5555) (hreg1 : reg1 % 2 ^ 15 = 0x2AAA)

include hreg0 hreg1

/-- The cycles before each command. -/
theorem unlock_eq (hmode : s.mode = .ready) (hbusy : s.busy = 0) :
    c.write (c.write s reg0 0xAA) reg1 0x55 = { s with mode := .command } := by
  norm_num at hreg0 hreg1
  simp [write, IsCommand, hmode, hbusy, hreg0, hreg1]

/-- **The command that programs a byte.** -/
theorem program_eq (h : Holds f s) (a : ℕ) (d : UInt8) :
    WillHold (programByte f a d) (c.write (c.write (c.write (c.write s reg0 0xAA) reg1 0x55) reg0 0xA0) a d) := by
  rw [unlock_eq hreg0 hreg1 h.mode h.busy]
  norm_num at hreg0
  constructor <;> simp [write, IsCommand, h.busy, h.cells, h.identifies, hreg0]

/-- **The command that erases a sector.** -/
theorem erase_eq (h : Holds f s) (a : ℕ) :
    WillHold (eraseSector c.sectorSize f a)
      (c.write (c.write (c.write (c.write (c.write (c.write s reg0 0xAA) reg1 0x55) reg0 0x80)
        reg0 0xAA) reg1 0x55) a 0x30) := by
  rw [unlock_eq hreg0 hreg1 h.mode h.busy]
  norm_num at hreg0 hreg1
  constructor <;> simp [write, IsCommand, h.busy, h.cells, h.identifies, hreg0, hreg1]

/-- The command after which reads return the identifiers. -/
theorem identify_eq (hmode : s.mode = .ready) (hbusy : s.busy = 0) :
    c.write (c.write (c.write s reg0 0xAA) reg1 0x55) reg0 0x90 = { s with mode := .ready, identifies := true } := by
  rw [unlock_eq hreg0 hreg1 hmode hbusy]
  norm_num at hreg0
  simp [write, IsCommand, hbusy, hreg0]

/-- The command after which reads return the contents. -/
theorem exit_eq (hmode : s.mode = .ready) (hbusy : s.busy = 0) :
    c.write (c.write (c.write s reg0 0xAA) reg1 0x55) reg0 0xF0 = { s with mode := .ready, identifies := false } := by
  rw [unlock_eq hreg0 hreg1 hmode hbusy]
  norm_num at hreg0
  simp [write, IsCommand, hbusy, hreg0]

end Commands

/-! ## Status -/

theorem read_of_busy (hbusy : s.busy ≠ 0) (a : ℕ) :
    c.read s a = (status s, { s with busy := s.busy - 1, toggle := !s.toggle }) := if_neg hbusy

theorem read_of_done (hbusy : s.busy = 0) (a : ℕ) : c.read s a = (c.value s a, s) := if_pos hbusy

/-- Reading the contents. -/
theorem read_of_holds (h : Holds f s) (a : ℕ) : c.read s a = (f a, s) := by
  rw [read_of_done h.busy, value, h.identifies, h.cells]
  rfl

/-- Reads change nothing but the progress of the work. -/
theorem willHold_read (h : WillHold f s) (a : ℕ) : WillHold f (c.read s a).2 := by
  rw [read]
  split_ifs
  · exact h
  · exact ⟨h.cells, h.mode, h.identifies⟩

theorem busy_read (a : ℕ) : (c.read s a).2.busy = s.busy - 1 := by
  rw [read]
  split_ifs with h
  · simp [h]
  · rfl

/-- If two reads differ in the bit that toggles, the chip was at work before them. -/
theorem busy_of_toggles {a : ℕ}
    (h : (c.read s a).1 &&& 0x40 ≠ (c.read (c.read s a).2 a).1 &&& 0x40) : s.busy ≠ 0 := by
  intro hbusy
  rw [read_of_done hbusy, read_of_done hbusy] at h
  exact h rfl

/-- If two reads agree in the bit that toggles, the chip has done its work after them. -/
theorem done_of_not_toggles {a : ℕ}
    (h : (c.read s a).1 &&& 0x40 = (c.read (c.read s a).2 a).1 &&& 0x40) :
    (c.read (c.read s a).2 a).2.busy = 0 := by
  by_contra hbusy
  -- each read takes one from what is left, so both of them were reads of the status
  have hfirst : s.busy ≠ 0 := by
    rw [busy_read, busy_read] at hbusy
    omega
  have hsecond : (c.read s a).2.busy ≠ 0 := by
    rw [busy_read] at hbusy
    omega
  rw [read_of_busy hsecond, read_of_busy hfirst] at h
  cases htoggle : s.toggle <;> simp [status, htoggle] at h

end Chip

/-! ## Ranges of the contents -/

/-- The contents with the bytes from `a` on. -/
def overwrite (f : ℕ → UInt8) (a : ℕ) (bytes : List UInt8) : ℕ → UInt8 :=
  fun b => if a ≤ b then bytes.getD (b - a) (f b) else f b

/-- The `n` bytes from `a` on. -/
def window (f : ℕ → UInt8) (a n : ℕ) : List UInt8 := (List.range n).map fun k => f (a + k)

variable {f : ℕ → UInt8}

@[simp] theorem overwrite_nil (f : ℕ → UInt8) (a : ℕ) : overwrite f a [] = f := by
  ext b
  simp [overwrite]

theorem overwrite_apply_of_outside {a b : ℕ} {bytes : List UInt8} (h : b < a ∨ a + bytes.length ≤ b) :
    overwrite f a bytes b = f b := by
  rw [overwrite]
  split_ifs with hab
  · exact List.getD_eq_default _ _ (by omega)
  · rfl

theorem overwrite_apply_add {a k : ℕ} {bytes : List UInt8} (h : k < bytes.length) :
    overwrite f a bytes (a + k) = bytes[k] := by
  rw [overwrite, if_pos (Nat.le_add_right a k), Nat.add_sub_cancel_left, List.getD_eq_getElem]

/-- Two ranges next to each other. -/
theorem overwrite_append (f : ℕ → UInt8) (a : ℕ) (left right : List UInt8) :
    overwrite (overwrite f a left) (a + left.length) right = overwrite f a (left ++ right) := by
  ext b
  -- a byte is in the right range only if it is past the left one
  by_cases hleft : b < a + left.length
  · rw [overwrite_apply_of_outside (.inl hleft), overwrite, overwrite]
    split_ifs with hab
    · rw [List.getD_append _ _ _ _ (by omega)]
    · rfl
  · have hab : a ≤ b := by omega
    rw [overwrite, overwrite, overwrite, if_pos (by omega), if_pos hab, if_pos hab,
      List.getD_append_right _ _ _ _ (by omega), List.getD_eq_default left _ (by omega), Nat.sub_sub]

@[simp] theorem length_window (f : ℕ → UInt8) (a n : ℕ) : (window f a n).length = n := by
  simp [window]

theorem window_succ (f : ℕ → UInt8) (a n : ℕ) : window f a (n + 1) = f a :: window f (a + 1) n := by
  simp [window, List.range_succ_eq_map, Nat.add_assoc, Nat.add_comm 1]

theorem window_add (f : ℕ → UInt8) (a m n : ℕ) : window f a m ++ window f (a + m) n = window f a (m + n) := by
  simp [window, List.range_add, Nat.add_assoc]

/-- What is read is what was written. -/
theorem window_overwrite (f : ℕ → UInt8) (a : ℕ) (bytes : List UInt8) :
    window (overwrite f a bytes) a bytes.length = bytes := by
  refine List.ext_getElem (by simp) fun k hk hk' => ?_
  simp only [window, List.getElem_map, List.getElem_range]
  exact overwrite_apply_add hk'

theorem window_congr {g : ℕ → UInt8} {a n : ℕ} (h : ∀ k < n, f (a + k) = g (a + k)) : window f a n = window g a n :=
  List.map_congr_left fun k hk => h k (List.mem_range.mp hk)

/-- A range of the bytes that are next to each other. -/
theorem slice_window {a n size : ℕ} (h : a + n ≤ size) : slice (window f 0 size) a n = window f a n := by
  obtain ⟨rest, rfl⟩ := Nat.exists_eq_add_of_le h
  rw [slice, Nat.add_assoc, ← window_add, List.drop_left' (length_window f 0 a), ← window_add,
    List.take_left' (length_window f _ n), Nat.zero_add]

/-- The bytes, with a range of them replaced. -/
theorem splice_window {a size : ℕ} {bytes : List UInt8} (h : a + bytes.length ≤ size) :
    splice (window f 0 size) a bytes = window (overwrite f a bytes) 0 size := by
  obtain ⟨rest, rfl⟩ := Nat.exists_eq_add_of_le h
  -- the window is three windows next to each other, and the bytes are the second
  have hbefore : window (overwrite f a bytes) 0 a = window f 0 a :=
    window_congr fun k hk => overwrite_apply_of_outside (.inl (by omega))
  have hafter : window (overwrite f a bytes) (a + bytes.length) rest = window f (a + bytes.length) rest :=
    window_congr fun k _ => overwrite_apply_of_outside (.inr (by omega))
  have hdrop : (window f 0 (a + bytes.length + rest)).drop (a + bytes.length) =
      window f (a + bytes.length) rest := by
    rw [← window_add, List.drop_left' (length_window f 0 _), Nat.zero_add]
  have htake : (window f 0 (a + bytes.length + rest)).take a = window f 0 a := by
    rw [Nat.add_assoc, ← window_add, List.take_left' (length_window f 0 a)]
  rw [splice, hdrop, htake, ← window_add, ← window_add, hbefore, Nat.zero_add, Nat.zero_add, hafter,
    window_overwrite]

/-- Programming a byte that is erased. -/
theorem programByte_of_erased {a : ℕ} (h : f a = 0xFF) (d : UInt8) : programByte f a d = overwrite f a [d] := by
  have hand : (0xFF : UInt8) &&& d = d := UInt8.neg_one_and
  ext b
  rw [programByte, h, hand]
  rcases eq_or_ne b a with rfl | hne
  · simp [overwrite]
  · rw [Function.update_of_ne hne, overwrite_apply_of_outside]
    simp only [List.length_singleton]
    omega

/-- A sector that is erased and then filled. -/
theorem overwrite_eraseSector {size b : ℕ} {bytes : List UInt8} (hsize : bytes.length = size) (hpos : 0 < size) :
    overwrite (eraseSector size f (b * size)) (b * size) bytes = overwrite f (b * size) bytes := by
  ext x
  -- a byte before the sector, in it, and behind it; only in it is there something to erase
  rcases Nat.lt_or_ge x (b * size) with hx | hx
  · have hne : x / size ≠ b := by
      intro heq
      rw [← heq] at hx
      exact absurd hx (Nat.not_lt.mpr (Nat.div_mul_le_self x size))
    rw [overwrite_apply_of_outside (.inl hx), overwrite_apply_of_outside (.inl hx), eraseSector,
      Nat.mul_div_cancel _ hpos, if_neg hne]
  · rcases Nat.lt_or_ge x (b * size + bytes.length) with hx' | hx'
    · obtain ⟨k, rfl⟩ := Nat.exists_eq_add_of_le hx
      rw [overwrite_apply_add (by omega), overwrite_apply_add (by omega)]
    · have hne : x / size ≠ b := by
        intro heq
        have hlt := Nat.lt_mul_div_succ x hpos
        rw [heq, Nat.mul_comm, Nat.add_mul] at hlt
        omega
      rw [overwrite_apply_of_outside (.inr hx'), overwrite_apply_of_outside (.inr hx'), eraseSector,
        Nat.mul_div_cancel _ hpos, if_neg hne]

/-- The bytes of an erased sector. -/
theorem eraseSector_apply {size b k : ℕ} (hk : k < size) (f : ℕ → UInt8) :
    eraseSector size f (b * size) (b * size + k) = 0xFF := by
  have hpos : 0 < size := by omega
  rw [eraseSector, Nat.mul_div_cancel _ hpos, Nat.mul_comm, Nat.mul_add_div hpos, Nat.div_eq_of_lt hk]
  exact if_pos (Nat.add_zero b)

end NorFlash

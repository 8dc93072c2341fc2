import I80k.Kernel.Descriptors
import I80k.Libc.Malloc

/-!
# Descriptors in memory

The table of a task is a pointer, and its slots are where the pointer arithmetic of the target finds them: a
slot has a word for its type and one for its handle. Neither `task_get_desc` nor a system call looks at the
number that it is given, and what it finds there is a slot of the table only if the number is one of
the 16. Nor is there memory for 16 slots: `task_put_desc` asks `calloc` for 16 times the size of a
`desc_t`, and the ninth slot is behind the end of what it gets.

Each function comes with the numbers of the slots that it reads or writes, whether or not they are in the
table.

## Main definitions

* `DescTask`: the pointer to the table, and the words of the data segment
* `DescTask.taskPutDesc`, `DescTask.taskGetDesc`, `DescTask.taskResetDesc`: the functions of `task.c`
* `DescTask.sysRead`, `DescTask.sysWrite`, `DescTask.sysClose`, `DescTask.syscallInt80`
* `DescTask.LooksUpSafely`: a number gets at a slot of the table that is in use, and at nothing else
* `DescTask.Represents`: the words of a task are those of a table as a list
* `DescRun`: a table with what was put in it; `DescRun.IsMap`: the table is a map in its own memory
* `DescRun.Fits`: there is a slot in the memory of the table, and all of the descriptor is stored

## Main results

* `task_get_desc_safe_iff`: when a number is looked up safely
* `DescTask.putLoop_eq`: the slot that a descriptor is put in
* `DescTask.Represents.put`, `DescTask.Represents.get`, `DescTask.Represents.reset`: the functions on the words
  do what those on the list do, in the slots that there is memory for
* `DescRun.Inv.step`, `DescRun.Inv.lost`: the steps that keep the map, and those that lose it
* `desc_table_map_iff`: the table is a map along exactly the runs whose steps fit
-/

namespace I80k.Kernel

open StepSystem
open Libc (Word)

/-! ## The functions of `task.c` -/

/-- `DESC_UNSET`. -/
def descUnset : Word := 0

/-- `DESC_FILE`. -/
def descFile : Word := 1

/-- `DESC_DIR`. -/
def descDir : Word := 2

/-- `sizeof(desc_t)`. -/
def sizeofDescT : ℕ := 2

/-- `sizeof(struct descriptor)`: a type, and a handle. -/
def sizeofDescriptor : ℕ := 4

/-- The field `descriptors` of a task, and the words of the data segment. -/
structure DescTask where
  descriptors : Word
  mem : Word → Word

namespace DescTask

variable (t : DescTask)

/-- `&t->descriptors[i]`. -/
def slot (i : Word) : Word := t.descriptors + BitVec.ofNat 16 sizeofDescriptor * i

/-- `t->descriptors[i].type`. -/
def typeAt (i : Word) : Word := t.mem (t.slot i)

/-- `t->descriptors[i].handle`. -/
def handleAt (i : Word) : Word := t.mem (t.slot i + 2)

/-- `task_set_desc`. The handle is not stored for another type. -/
def taskSetDesc (d type handle : Word) : DescTask :=
  let mem := Function.update t.mem d type
  -- a `switch` without a default
  if type = descFile then { t with mem := Function.update mem (d + 2) handle }
  else if type = descDir then { t with mem := Function.update mem (d + 2) handle }
  else { t with mem := mem }

/-- The table, allocated if it was not: `calloc` returns `ptr`, null if it fails, and sets the memory to
zero. -/
def allocDescriptors (ptr : Word) : DescTask :=
  if t.descriptors = 0 then
    { descriptors := ptr
      -- `calloc(MAX_FD, sizeof(desc_t))`: half of what 16 descriptors take
      mem := fun a => if ptr ≠ 0 ∧ (a - ptr).toNat < maxFd * sizeofDescT then 0 else t.mem a }
  else t

/-- The loop of `task_put_desc` from `i` on, with `n` turns to go: the task, the result, and the slots. -/
def putLoop (type handle : Word) : ℕ → ℕ → DescTask × Int16 × List ℤ
  | _, 0 => (t, errNoMem, [])
  | i, n + 1 =>
    if t.typeAt (BitVec.ofNat 16 i) = descUnset then
      (t.taskSetDesc (t.slot (BitVec.ofNat 16 i)) type handle, Int16.ofNat i, [(i : ℤ)])
    else
      let (t', ret, slots) := putLoop type handle (i + 1) n
      (t', ret, (i : ℤ) :: slots)

/-- `task_put_desc`. -/
def taskPutDesc (ptr type handle : Word) : DescTask × Int16 × List ℤ :=
  (t.allocDescriptors ptr).putLoop type handle 0 maxFd

/-- `task_get_desc`: a pointer to the descriptor, or null, and the slots. -/
def taskGetDesc (fd : Int16) : Option Word × List ℤ :=
  if t.descriptors = 0 then (none, [])
  else if t.typeAt fd.toBitVec ≠ descUnset then (some (t.slot fd.toBitVec), [fd.toInt])
  else (none, [fd.toInt])

/-- `task_reset_desc`. -/
def taskResetDesc (fd : Int16) : DescTask × List ℤ :=
  ({ t with mem := Function.update t.mem (t.slot fd.toBitVec) descUnset }, [fd.toInt])

end DescTask

/-! ## The system calls -/

/-- The functions of `fs.c` that are called with a handle, and the system calls that take no descriptor. -/
structure DescFs where
  fsReadFile : DescTask → Word → Word → Word → DescTask × Int16
  fsWriteFile : DescTask → Word → Word → Word → DescTask × Int16
  fsCloseFile : DescTask → Word → DescTask
  fsCloseDir : DescTask → Word → DescTask
  other : DescTask → Word → Word → Word → Word → Word → DescTask × Int16

namespace DescTask

variable (fs : DescFs) (t : DescTask)

/-- `sys_read` and `sys_write`, with the function of `fs.c`: the task, the result, and the slots. -/
def transfer (file : DescTask → Word → Word → Word → DescTask × Int16) (fd : Int16) (buf count : Word) :
    DescTask × Int16 × List ℤ :=
  match t.taskGetDesc fd with
  | (none, slots) => (t, errInval, slots)
  | (some desc, slots) =>
    if t.mem desc ≠ descFile then (t, errNotSupp, slots)
    else
      let (t', ret) := file t (t.mem (desc + 2)) buf count
      (t', ret, slots)

/-- `sys_read`. -/
def sysRead (fd : Int16) (buf count : Word) : DescTask × Int16 × List ℤ :=
  t.transfer fs.fsReadFile fd buf count

/-- `sys_write`. -/
def sysWrite (fd : Int16) (buf count : Word) : DescTask × Int16 × List ℤ :=
  t.transfer fs.fsWriteFile fd buf count

/-- `sys_close`. -/
def sysClose (fd : Int16) : DescTask × Int16 × List ℤ :=
  match t.taskGetDesc fd with
  | (none, slots) => (t, errInval, slots)
  | (some desc, slots) =>
    -- the result of `fs_close_file` and of `fs_close_dir` is not used
    let reset (t : DescTask) : DescTask × Int16 × List ℤ :=
      ((t.taskResetDesc fd).1, 0, slots ++ (t.taskResetDesc fd).2)
    if t.mem desc = descFile then reset (fs.fsCloseFile t (t.mem (desc + 2)))
    else if t.mem desc = descDir then reset (fs.fsCloseDir t (t.mem (desc + 2)))
    else (t, errNotSupp, slots)

/-- `syscall_int80`. -/
def syscallInt80 (nr arg0 arg1 arg2 arg3 : Word) : DescTask × Int16 × List ℤ :=
  if nr = 0x0 then t.sysRead fs (Int16.ofBitVec arg0) arg1 arg2
  else if nr = 0x1 then t.sysWrite fs (Int16.ofBitVec arg0) arg1 arg2
  else if nr = 0x3 then t.sysClose fs (Int16.ofBitVec arg0)
  else
    let (t', ret) := fs.other t nr arg0 arg1 arg2 arg3
    (t', ret, [])

/-! ## Looking up a number -/

/-- The number is the one of a slot of the table. -/
def InTable (i : ℤ) : Prop := 0 ≤ i ∧ i < maxFd

instance (i : ℤ) : Decidable (InTable i) := inferInstanceAs (Decidable (_ ∧ _))

/-- The task has a table, and the slot is one of it and in use. -/
def InUse (fd : Int16) : Prop :=
  t.descriptors ≠ 0 ∧ InTable fd.toInt ∧ t.typeAt fd.toBitVec ≠ descUnset

instance (fd : Int16) : Decidable (t.InUse fd) := inferInstanceAs (Decidable (_ ∧ _ ∧ _))

/-- A lookup finds the slot if it is in use, and nothing otherwise; and neither the lookup nor a system call
with the number reads or writes another slot than those of the table. -/
structure LooksUpSafely (fd : Int16) : Prop where
  finds : (t.taskGetDesc fd).1 = if t.InUse fd then some (t.slot fd.toBitVec) else none
  inside : ∀ i ∈ (t.taskGetDesc fd).2, InTable i
  syscall : ∀ fs, ∀ nr ∈ [0x0, 0x1, 0x3], ∀ arg1 arg2 arg3,
    ∀ i ∈ (t.syscallInt80 fs nr fd.toBitVec arg1 arg2 arg3).2.2, InTable i

variable {t} {fs}

theorem taskGetDesc_of_null (h : t.descriptors = 0) (fd : Int16) : t.taskGetDesc fd = (none, []) := if_pos h

theorem taskGetDesc_of_table (h : t.descriptors ≠ 0) (fd : Int16) :
    t.taskGetDesc fd =
      (if t.typeAt fd.toBitVec ≠ descUnset then some (t.slot fd.toBitVec) else none, [fd.toInt]) := by
  rw [taskGetDesc, if_neg h]
  split_ifs <;> rfl

/-- Each slot that a lookup reads is the one with the number. -/
theorem mem_taskGetDesc {fd : Int16} {i : ℤ} (h : i ∈ (t.taskGetDesc fd).2) : i = fd.toInt := by
  by_cases hnull : t.descriptors = 0
  · rw [taskGetDesc_of_null hnull] at h
    exact absurd h List.not_mem_nil
  · rw [taskGetDesc_of_table hnull] at h
    exact List.mem_singleton.mp h

theorem mem_transfer {file : DescTask → Word → Word → Word → DescTask × Int16} {fd : Int16} {buf count : Word}
    {i : ℤ} (h : i ∈ (t.transfer file fd buf count).2.2) : i ∈ (t.taskGetDesc fd).2 := by
  rw [transfer] at h
  split at h
  · next heq => rwa [heq]
  · next heq =>
    rw [heq]
    split_ifs at h
    · exact h
    · exact h

/-- If there is no table, `sys_close` reads and writes no slot; else the one with the number. -/
theorem mem_sysClose {fd : Int16} {i : ℤ} (h : i ∈ (t.sysClose fs fd).2.2) :
    t.descriptors ≠ 0 ∧ i = fd.toInt := by
  by_cases hnull : t.descriptors = 0
  · rw [sysClose, taskGetDesc_of_null hnull] at h
    exact absurd h List.not_mem_nil
  · refine ⟨hnull, ?_⟩
    rw [sysClose] at h
    split at h
    · next heq =>
      rw [taskGetDesc_of_table hnull] at heq
      exact List.mem_singleton.mp ((Prod.mk.inj heq).2 ▸ h)
    · next heq =>
      rw [taskGetDesc_of_table hnull] at heq
      rw [← (Prod.mk.inj heq).2] at h
      split_ifs at h
      · simpa [taskResetDesc] using h
      · simpa [taskResetDesc] using h
      · simpa using h

/-- Each slot that a system call with a descriptor reads or writes is the one with the number. -/
theorem mem_syscallInt80 {fd : Int16} {nr arg1 arg2 arg3 : Word} (hnr : nr ∈ [0x0, 0x1, 0x3]) {i : ℤ}
    (h : i ∈ (t.syscallInt80 fs nr fd.toBitVec arg1 arg2 arg3).2.2) :
    t.descriptors ≠ 0 ∧ i = fd.toInt := by
  have hget : i ∈ (t.taskGetDesc fd).2 → t.descriptors ≠ 0 ∧ i = fd.toInt := by
    intro hi
    refine ⟨fun hnull => ?_, mem_taskGetDesc hi⟩
    rw [taskGetDesc_of_null hnull] at hi
    exact absurd hi List.not_mem_nil
  simp only [List.mem_cons, List.not_mem_nil, or_false] at hnr
  -- `sys_read` and `sys_write` only look the descriptor up; `sys_close` resets it too
  rcases hnr with rfl | rfl | rfl
  · exact hget (mem_transfer h)
  · exact hget (mem_transfer h)
  · exact mem_sysClose h

end DescTask

/-- **Lookups of descriptors, exactly.** For every task and every number that comes from a system call, a
lookup is safe if and only if the task has no table yet, or the number is one of the 16. -/
theorem task_get_desc_safe_iff (t : DescTask) (fd : Int16) :
    t.LooksUpSafely fd ↔ t.descriptors = 0 ∨ 0 ≤ fd.toInt ∧ fd.toInt < 16 := by
  constructor
  · intro h
    by_cases hnull : t.descriptors = 0
    · exact .inl hnull
    · -- the lookup reads the slot with the number, whatever the number is
      have hmem : fd.toInt ∈ (t.taskGetDesc fd).2 := by
        rw [DescTask.taskGetDesc_of_table hnull]
        exact List.mem_singleton_self _
      exact .inr (h.inside _ hmem)
  · rintro (hnull | hin)
    · refine ⟨?_, fun i hi => ?_, fun fs nr hnr arg1 arg2 arg3 i hi => ?_⟩
      · rw [DescTask.taskGetDesc_of_null hnull, if_neg fun h => h.1 hnull]
      · rw [DescTask.taskGetDesc_of_null hnull] at hi
        exact absurd hi List.not_mem_nil
      · exact absurd hnull (DescTask.mem_syscallInt80 hnr hi).1
    · refine ⟨?_, fun i hi => ?_, fun fs nr hnr arg1 arg2 arg3 i hi => ?_⟩
      · by_cases hnull : t.descriptors = 0
        · rw [DescTask.taskGetDesc_of_null hnull, if_neg fun h => h.1 hnull]
        · rw [DescTask.taskGetDesc_of_table hnull]
          exact if_congr ⟨fun htype => ⟨hnull, hin, htype⟩, fun h => h.2.2⟩ rfl rfl
      · rw [DescTask.mem_taskGetDesc hi]
        exact hin
      · rw [(DescTask.mem_syscallInt80 hnr hi).2]
        exact hin

/-- `close(-1)`, for a task with a table: what is before the table is taken for a descriptor of a file, and
its type is reset. -/
theorem not_looksUpSafely_negative :
    let t : DescTask := ⟨0x2000, fun a => if a = 0x1FFC then descFile else 0⟩
    let fs : DescFs :=
      ⟨fun t _ _ _ => (t, 0), fun t _ _ _ => (t, 0), fun t _ => t, fun t _ => t, fun t _ _ _ _ _ => (t, 0)⟩
    (t.taskGetDesc (-1)).1 = some 0x1FFC ∧ (t.sysClose fs (-1)).2 = (0, [-1, -1]) ∧
      (t.sysClose fs (-1)).1.mem 0x1FFC = 0 ∧ ¬ t.LooksUpSafely (-1) := by
  intro t fs
  refine ⟨by decide, by decide, by decide, fun h => ?_⟩
  exact absurd (h.inside (-1) (by decide)) (by decide)

/-! ## The table as a map -/

/-- A table, with what was put in it. -/
structure DescRun where
  task : DescTask
  /-- The size of the memory that `task_put_desc` got for the table. -/
  bytes : ℕ
  /-- The type and the handle last put in a slot, until it is reset. -/
  held : ℕ → Option (Word × Word)
  /-- The slots that the last step read or wrote. -/
  slots : List ℤ
  /-- What the slots held before the last `task_put_desc`, and its result. -/
  answer : Option ((ℕ → Option (Word × Word)) × Int16)

/-- The calls of `task_put_desc`, with what `calloc` returns if it is called, and of `task_reset_desc`; and
what the kernel stores elsewhere. -/
inductive DescOp
  | put (type handle ptr : Word)
  | reset (i : ℕ)
  | store (a value : Word)

/-- The slot is within the memory for the table. -/
def SlotWithin (bytes : ℕ) (i : ℤ) : Prop := 0 ≤ i ∧ sizeofDescriptor * i + sizeofDescriptor ≤ bytes

/-- The slot is the lowest that is not in use. -/
def LowestUnused (held : ℕ → Option (Word × Word)) (i : ℕ) : Prop := held i = none ∧ ∀ j < i, held j ≠ none

/-- The result of `task_put_desc` for a map: the lowest slot that is not in use, or `ERR_NO_MEM` if all
are. -/
def Answers (held : ℕ → Option (Word × Word)) (ret : Int16) : Prop :=
  (∃ i < maxFd, LowestUnused held i ∧ ret = Int16.ofNat i) ∨ (ret = errNoMem ∧ ∀ i < maxFd, held i ≠ none)

/-- The type and the handle of the descriptor that `task_get_desc` returns. -/
def DescTask.lookup (t : DescTask) (fd : Int16) : Option (Word × Word) :=
  (t.taskGetDesc fd).1.map fun desc => (t.mem desc, t.mem (desc + 2))

namespace DescRun

variable (s : DescRun)

/-- No byte of the word is one of the table. -/
def Apart (a : Word) : Prop :=
  s.bytes ≤ (a - s.task.descriptors).toNat ∧ s.bytes ≤ (a + 1 - s.task.descriptors).toNat

instance (a : Word) : Decidable (s.Apart a) := inferInstanceAs (Decidable (_ ∧ _))

/-- The step of an operation. Only slots that are in use are reset. -/
def step : DescOp → Option DescRun
  | .put type handle ptr =>
    let (task, ret, slots) := s.task.taskPutDesc ptr type handle
    some
      { task
        bytes := if s.task.descriptors = 0 ∧ ptr ≠ 0 then maxFd * sizeofDescT else s.bytes
        held := if ret < 0 then s.held else Function.update s.held ret.toInt.toNat (some (type, handle))
        slots
        answer := some (s.held, ret) }
  | .reset i =>
    if i < maxFd ∧ (s.held i).isSome then
      let (task, slots) := s.task.taskResetDesc (Int16.ofNat i)
      some { s with task, slots, held := Function.update s.held i none }
    else none
  | .store a value =>
    if s.Apart a then
      some { s with task := { s.task with mem := Function.update s.task.mem a value }, slots := [] }
    else none

/-- A task without a table. -/
def initial (mem : Word → Word) : DescRun := ⟨⟨0, mem⟩, 0, fun _ => none, [], none⟩

/-- **The table is a map in its own memory.** -/
structure IsMap : Prop where
  within : ∀ i ∈ s.slots, SlotWithin s.bytes i
  answers : ∀ held ret, s.answer = some (held, ret) → Answers held ret
  gets : ∀ i < maxFd, ∀ d, s.held i = some d → s.task.lookup (Int16.ofNat i) = some d ∧
    ∀ j ∈ (s.task.taskGetDesc (Int16.ofNat i)).2, SlotWithin s.bytes j

/-- The handle that is in a slot, of a table that is allocated if it was not. -/
def oldHandle (i : ℕ) : Word := if s.task.descriptors = 0 then 0 else s.task.handleAt (BitVec.ofNat 16 i)

/-- The table is there or can be allocated, one of its first 8 slots is not in use, and the type is that of
a file or of a directory; or it is another one, but not that of a free slot, and the handle is in the slot
already. -/
def Fits : DescOp → Prop
  | .put type handle ptr => (s.task.descriptors ≠ 0 ∨ ptr ≠ 0) ∧ ∃ i < tableLen, LowestUnused s.held i ∧
      type ≠ descUnset ∧ (type = descFile ∨ type = descDir ∨ handle = s.oldHandle i)
  | .reset _ => True
  | .store _ _ => True

end DescRun

/-! ## The words of the table -/

namespace DescTask

variable {t : DescTask}

/-- The word at an offset of the table. -/
def wordAt (t : DescTask) (k : ℕ) : Word := t.mem (t.descriptors + BitVec.ofNat 16 k)

theorem slot_ofNat (i : ℕ) : t.slot (BitVec.ofNat 16 i) = t.descriptors + BitVec.ofNat 16 (4 * i) := by
  rw [slot, sizeofDescriptor, BitVec.ofNat_mul]

theorem slot_ofNat_add_two (i : ℕ) :
    t.slot (BitVec.ofNat 16 i) + 2 = t.descriptors + BitVec.ofNat 16 (4 * i + 2) := by
  rw [slot_ofNat, BitVec.ofNat_add, BitVec.add_assoc]
  rfl

theorem typeAt_ofNat (i : ℕ) : t.typeAt (BitVec.ofNat 16 i) = t.wordAt (4 * i) := by
  rw [typeAt, slot_ofNat, wordAt]

theorem handleAt_ofNat (i : ℕ) : t.handleAt (BitVec.ofNat 16 i) = t.wordAt (4 * i + 2) := by
  rw [handleAt, slot_ofNat_add_two, wordAt]

/-- Offsets of the table are apart. -/
theorem offset_inj {p : Word} {k l : ℕ} (hk : k < 2 ^ 16) (hl : l < 2 ^ 16) :
    p + BitVec.ofNat 16 k = p + BitVec.ofNat 16 l ↔ k = l := by
  rw [BitVec.add_right_inj, ← BitVec.toNat_inj, BitVec.toNat_ofNat, BitVec.toNat_ofNat,
    Nat.mod_eq_of_lt hk, Nat.mod_eq_of_lt hl]

/-- The table with a word at an offset. -/
def setWord (t : DescTask) (k : ℕ) (v : Word) : DescTask :=
  { t with mem := Function.update t.mem (t.descriptors + BitVec.ofNat 16 k) v }

theorem wordAt_setWord {k l : ℕ} {v : Word} (hk : k < 2 ^ 16) (hl : l < 2 ^ 16) :
    (t.setWord l v).wordAt k = if k = l then v else t.wordAt k := by
  simp only [wordAt, setWord, Function.update_apply]
  exact if_congr (offset_inj hk hl) rfl rfl

theorem taskSetDesc_eq (i : ℕ) (type handle : Word) :
    t.taskSetDesc (t.slot (BitVec.ofNat 16 i)) type handle =
      if type = descFile ∨ type = descDir then (t.setWord (4 * i) type).setWord (4 * i + 2) handle
      else t.setWord (4 * i) type := by
  rw [taskSetDesc, slot_ofNat_add_two, slot_ofNat]
  by_cases hfile : type = descFile
  · simp only [if_pos hfile, if_pos (Or.inl hfile), setWord]
  · by_cases hdir : type = descDir
    · simp only [if_neg hfile, if_pos hdir, if_pos (Or.inr hdir), setWord]
    · simp only [if_neg hfile, if_neg hdir, if_neg (not_or.mpr ⟨hfile, hdir⟩), setWord]

/-- The words of the table after `task_set_desc`. -/
theorem wordAt_taskSetDesc {i k : ℕ} (hi : i < tableLen) (hk : k < 2 ^ 16) (type handle : Word) :
    (t.taskSetDesc (t.slot (BitVec.ofNat 16 i)) type handle).wordAt k =
      if k = 4 * i then type
      else if k = 4 * i + 2 ∧ (type = descFile ∨ type = descDir) then handle
      else t.wordAt k := by
  have hlen : tableLen = 8 := rfl
  rw [taskSetDesc_eq]
  by_cases htype : type = descFile ∨ type = descDir
  · rw [if_pos htype, wordAt_setWord hk (by omega), wordAt_setWord hk (by omega)]
    -- a type is at a multiple of 4, and a handle is not
    split_ifs <;> first | rfl | omega | simp_all
  · rw [if_neg htype, wordAt_setWord hk (by omega), if_neg fun h : k = 4 * i + 2 ∧ _ => htype h.2]

theorem descriptors_taskSetDesc (d type handle : Word) :
    (t.taskSetDesc d type handle).descriptors = t.descriptors := by
  rw [taskSetDesc]
  split_ifs <;> rfl

theorem taskResetDesc_eq (i : ℕ) :
    t.taskResetDesc (Int16.ofNat i) = (t.setWord (4 * i) descUnset, [(Int16.ofNat i).toInt]) := by
  rw [taskResetDesc, show (Int16.ofNat i).toBitVec = BitVec.ofNat 16 i from rfl, slot_ofNat, setWord]

/-- What `task_get_desc` returns for a slot of the table. -/
theorem lookup_ofNat (h : t.descriptors ≠ 0) (i : ℕ) :
    t.lookup (Int16.ofNat i) =
      if t.wordAt (4 * i) ≠ descUnset then some (t.wordAt (4 * i), t.wordAt (4 * i + 2)) else none := by
  rw [lookup, taskGetDesc_of_table h, show (Int16.ofNat i).toBitVec = BitVec.ofNat 16 i from rfl, typeAt_ofNat]
  split_ifs
  · simp only [Option.map_some, slot_ofNat_add_two]
    rw [slot_ofNat, wordAt, wordAt]
  · rfl

/-- The first 8 slots are what they hold. -/
structure Backed (t : DescTask) (held : ℕ → Option (Word × Word)) : Prop where
  table : t.descriptors ≠ 0
  unused : ∀ i < tableLen, held i = none → t.wordAt (4 * i) = descUnset
  used : ∀ i < tableLen, ∀ d, held i = some d →
    d.1 ≠ descUnset ∧ t.wordAt (4 * i) = d.1 ∧ t.wordAt (4 * i + 2) = d.2

variable {held : ℕ → Option (Word × Word)}

/-- What is looked up in a slot is what it holds. -/
theorem Backed.lookup (h : t.Backed held) {i : ℕ} (hi : i < tableLen) : t.lookup (Int16.ofNat i) = held i := by
  rw [lookup_ofNat h.table]
  cases hd : held i with
  | none => rw [h.unused i hi hd, if_neg (not_not.mpr rfl)]
  | some d =>
    obtain ⟨hunset, htype, hhandle⟩ := h.used i hi d hd
    rw [htype, hhandle, if_pos hunset]

/-- One slot changes, and the others stay as they are. -/
theorem Backed.update (h : t.Backed held) {t' : DescTask} {i : ℕ} {d : Option (Word × Word)}
    (htable : t'.descriptors = t.descriptors)
    (hother : ∀ j < tableLen, j ≠ i →
      t'.wordAt (4 * j) = t.wordAt (4 * j) ∧ t'.wordAt (4 * j + 2) = t.wordAt (4 * j + 2))
    (hunused : d = none → t'.wordAt (4 * i) = descUnset)
    (hused : ∀ e, d = some e → e.1 ≠ descUnset ∧ t'.wordAt (4 * i) = e.1 ∧ t'.wordAt (4 * i + 2) = e.2) :
    t'.Backed (Function.update held i d) := by
  refine ⟨htable ▸ h.table, fun j hj hnone => ?_, fun j hj e he => ?_⟩
  · rcases eq_or_ne j i with rfl | hne
    · rw [Function.update_self] at hnone
      exact hunused hnone
    · rw [Function.update_of_ne hne] at hnone
      rw [(hother j hj hne).1]
      exact h.unused j hj hnone
  · rcases eq_or_ne j i with rfl | hne
    · rw [Function.update_self] at he
      exact hused e he
    · rw [Function.update_of_ne hne] at he
      rw [(hother j hj hne).1, (hother j hj hne).2]
      exact h.used j hj e he

/-- All of a descriptor is stored in a slot. -/
theorem Backed.set (h : t.Backed held) {i : ℕ} {type handle : Word} (hi : i < tableLen) (hunset : type ≠ descUnset)
    (hstored : type = descFile ∨ type = descDir ∨ handle = t.wordAt (4 * i + 2)) :
    (t.taskSetDesc (t.slot (BitVec.ofNat 16 i)) type handle).Backed
      (Function.update held i (some (type, handle))) := by
  have hlen : tableLen = 8 := rfl
  refine h.update (descriptors_taskSetDesc _ _ _) (fun j hj hne => ?_) nofun ?_
  · rw [wordAt_taskSetDesc hi (by omega), wordAt_taskSetDesc hi (by omega), if_neg (by omega), if_neg (by omega),
      if_neg (by omega), if_neg (by omega)]
    exact ⟨rfl, rfl⟩
  · rintro _ ⟨⟩
    rw [wordAt_taskSetDesc hi (by omega), wordAt_taskSetDesc hi (by omega), if_pos rfl, if_neg (by omega)]
    refine ⟨hunset, rfl, ?_⟩
    split_ifs with hkind
    · rfl
    · rcases hstored with hfile | hdir | hold
      · exact absurd ⟨rfl, .inl hfile⟩ hkind
      · exact absurd ⟨rfl, .inr hdir⟩ hkind
      · exact hold.symm

theorem Backed.reset (h : t.Backed held) {i : ℕ} (hi : i < tableLen) :
    (t.setWord (4 * i) descUnset).Backed (Function.update held i none) := by
  have hlen : tableLen = 8 := rfl
  refine h.update rfl (fun j hj hne => ?_) (fun _ => ?_) nofun
  · rw [wordAt_setWord (by omega) (by omega), wordAt_setWord (by omega) (by omega), if_neg (by omega),
      if_neg (by omega)]
    exact ⟨rfl, rfl⟩
  · rw [wordAt_setWord (by omega) (by omega), if_pos rfl]

/-- A table that was just allocated. -/
theorem backed_allocDescriptors {ptr : Word} (hnull : t.descriptors = 0) (hptr : ptr ≠ 0) :
    (t.allocDescriptors ptr).Backed (fun _ => none) ∧
      ∀ i < tableLen, (t.allocDescriptors ptr).wordAt (4 * i + 2) = 0 := by
  have hlen : tableLen = 8 := rfl
  have hzero : ∀ k < 32, (t.allocDescriptors ptr).wordAt k = 0 := by
    intro k hk
    rw [wordAt, allocDescriptors, if_pos hnull]
    refine if_pos ⟨hptr, ?_⟩
    rw [add_sub_cancel_left, BitVec.toNat_ofNat, Nat.mod_eq_of_lt (by omega)]
    exact hk
  refine ⟨⟨?_, fun i hi _ => hzero _ (by omega), nofun⟩, fun i hi => hzero _ (by omega)⟩
  rw [allocDescriptors, if_pos hnull]
  exact hptr

/-! ## The loop -/

/-- The loop gets to each slot with only slots in use before it. -/
theorem mem_putLoop (type handle : Word) {k m n : ℕ} (hkm : k ≤ m) (hmn : m < k + n)
    (hused : ∀ j, k ≤ j → j < m → t.wordAt (4 * j) ≠ descUnset) :
    (m : ℤ) ∈ (t.putLoop type handle k n).2.2 := by
  induction n generalizing k with
  | zero => omega
  | succ n ih =>
    rw [putLoop, typeAt_ofNat]
    rcases Nat.eq_or_lt_of_le hkm with rfl | hlt
    · -- the slot is read whether or not it is in use
      split_ifs
      · exact List.mem_singleton_self _
      · exact List.mem_cons_self
    · rw [if_neg (hused k le_rfl hlt)]
      exact List.mem_cons_of_mem _ (ih hlt (by omega) fun j hj hjm => hused j (by omega) hjm)

/-- **The slot that a descriptor is put in**: the first one that is not in use, after those before it have
been read. -/
theorem putLoop_eq (type handle : Word) {i k n : ℕ} (hki : k ≤ i) (hin : i < k + n)
    (hused : ∀ j, k ≤ j → j < i → t.wordAt (4 * j) ≠ descUnset) (hfree : t.wordAt (4 * i) = descUnset) :
    ∃ slots, t.putLoop type handle k n =
        (t.taskSetDesc (t.slot (BitVec.ofNat 16 i)) type handle, Int16.ofNat i, slots) ∧
      ∀ j ∈ slots, 0 ≤ j ∧ j ≤ i := by
  induction n generalizing k with
  | zero => omega
  | succ n ih =>
    rw [putLoop, typeAt_ofNat]
    rcases Nat.eq_or_lt_of_le hki with rfl | hlt
    · rw [if_pos hfree]
      refine ⟨_, rfl, fun j hj => ?_⟩
      obtain rfl := List.mem_singleton.mp hj
      exact ⟨Int.natCast_nonneg k, le_rfl⟩
    · rw [if_neg (hused k le_rfl hlt)]
      obtain ⟨slots, heq, hslots⟩ := ih hlt (by omega) fun j hj hji => hused j (by omega) hji
      rw [heq]
      refine ⟨_, rfl, fun j hj => ?_⟩
      rcases List.mem_cons.mp hj with rfl | hj
      · omega
      · exact hslots j hj

end DescTask

/-! ## The table of a list -/

/-- The words of a descriptor in the memory of its table; `ref` is the pointer of a handle. -/
def Descriptor.words (ref : FileId → Word) : Descriptor → Option (Word × Word)
  | .unset => none
  | .file f => some (descFile, ref f)
  | .dir f => some (descDir, ref f)
  | .other => none

/-- What the slots of a table hold. -/
def heldBy (ref : FileId → Word) (table : List Descriptor) (i : ℕ) : Option (Word × Word) :=
  table[i]?.bind (Descriptor.words ref)

/-- The task has the table of the list, in the slots that there is memory for. -/
def DescTask.Represents (t : DescTask) (ref : FileId → Word) : Option (List Descriptor) → Prop
  | none => t.descriptors = 0
  | some table => table.length = maxFd ∧ (∀ i < tableLen, table[i]? ≠ some .other) ∧ t.Backed (heldBy ref table)

section Represents

variable {t : DescTask} {ref : FileId → Word} {table : List Descriptor} {d : Descriptor} {type handle : Word}

theorem Descriptor.words_eq_none_iff (hd : d ≠ .other) : d.words ref = none ↔ d = .unset := by
  cases d with
  | other => exact absurd rfl hd
  | _ => simp [words]

theorem Descriptor.type_of_words (hd : d.words ref = some (type, handle)) : type = descFile ∨ type = descDir := by
  cases d with
  | unset => exact absurd hd (by simp [words])
  | file f => exact .inl (Prod.mk.inj (Option.some.inj hd)).1.symm
  | dir f => exact .inr (Prod.mk.inj (Option.some.inj hd)).1.symm
  | other => exact absurd hd (by simp [words])

theorem heldBy_set {i : ℕ} (hi : i < table.length) :
    heldBy ref (table.set i d) = Function.update (heldBy ref table) i (d.words ref) := by
  funext j
  rcases eq_or_ne j i with rfl | hne
  · rw [Function.update_self, heldBy, List.getElem?_set_self hi, Option.bind_some]
  · rw [Function.update_of_ne hne, heldBy, heldBy, List.getElem?_set_ne hne.symm]

/-- A slot is set to a descriptor of its own. -/
theorem ne_other_set {i : ℕ} (hown : ∀ j < tableLen, table[j]? ≠ some .other) (hd : d ≠ .other) :
    ∀ j < tableLen, (table.set i d)[j]? ≠ some .other := by
  intro j hj hother
  rw [List.getElem?_set] at hother
  split_ifs at hother
  · exact hd (Option.some.inj hother)
  · exact hown j hj hother

namespace DescTask

/-- The loop on the words does what the loop on the list does, if it ends in the memory of the table. -/
theorem Backed.putLoop (hlen : table.length = maxFd) (hown : ∀ i < tableLen, table[i]? ≠ some .other)
    (h : t.Backed (heldBy ref table)) (hd : d.words ref = some (type, handle)) {i n k : ℕ} (hik : i ≤ k)
    (hkn : k < i + n) (hk : k < tableLen) (hfree : table[k]? = some .unset) :
    (t.putLoop type handle i n).1.Represents ref (some (Kernel.putLoop table d i n).1) ∧
      (t.putLoop type handle i n).2.1 = (Kernel.putLoop table d i n).2 := by
  induction n generalizing i with
  | zero => omega
  | succ n ih =>
    have hi : i < tableLen := by omega
    have hlt : i < table.length := hlen ▸ hi.trans (by decide)
    have hslot : table[i]? = some table[i] := List.getElem?_eq_getElem hlt
    have hheld : heldBy ref table i = table[i].words ref := by rw [heldBy, hslot, Option.bind_some]
    have hne : table[i] ≠ .other := fun he => hown i hi (he ▸ hslot)
    rw [Kernel.putLoop, DescTask.putLoop, typeAt_ofNat, hslot]
    by_cases hunset : table[i] = .unset
    · -- both loops end here
      rw [hunset] at hheld
      rw [if_pos (h.unused i hi hheld), if_pos (congrArg some hunset)]
      have hkind := Descriptor.type_of_words hd
      have htype : type ≠ descUnset := by rcases hkind with rfl | rfl <;> decide
      have hdown : d ≠ .other := by
        rintro rfl
        cases hd
      refine ⟨⟨(List.length_set ..).trans hlen, ne_other_set hown hdown, ?_⟩, rfl⟩
      rw [heldBy_set hlt, hd]
      exact h.set hi htype (or_assoc.mp (.inl hkind))
    · obtain ⟨e, he⟩ := Option.ne_none_iff_exists'.mp (mt (Descriptor.words_eq_none_iff hne).mp hunset)
      obtain ⟨hset, htype, -⟩ := h.used i hi e (hheld.trans he)
      have hused : t.wordAt (4 * i) ≠ descUnset := htype ▸ hset
      rw [if_neg hused, if_neg fun he => hunset (Option.some.inj he)]
      have hik' : i ≠ k := by
        rintro rfl
        exact hunset (Option.some.inj (hslot.symm.trans hfree))
      exact ih (by omega) (by omega)

/-- **`task_put_desc`** on the words does what it does on the list, if it finds a slot that there is memory for. -/
theorem Represents.put {table : Option (List Descriptor)} (h : t.Represents ref table)
    (hd : d.words ref = some (type, handle)) {ptr : Word} (hptr : table.isSome ∨ ptr ≠ 0) {used : ℕ → Bool} {k : ℕ}
    (hk : k < tableLen) (hfree : (allocTable table (ptr ≠ 0) used)[k]? = some .unset) :
    (t.taskPutDesc ptr type handle).1.Represents ref (Kernel.taskPutDesc table (ptr ≠ 0) used d).1 ∧
      (t.taskPutDesc ptr type handle).2.1 = (Kernel.taskPutDesc table (ptr ≠ 0) used d).2 := by
  have hkn : k < 0 + maxFd := by
    have hlt : tableLen < maxFd := by decide
    omega
  cases table with
  | some table =>
    have hsame : t.allocDescriptors ptr = t := if_neg h.2.2.table
    rw [taskPutDesc, hsame]
    exact h.2.2.putLoop h.1 h.2.1 hd (Nat.zero_le k) hkn hk hfree
  | none =>
    have hptr : ptr ≠ 0 := hptr.resolve_left (by simp)
    obtain ⟨hback, -⟩ := backed_allocDescriptors h hptr
    have htrue : decide (ptr ≠ 0) = true := decide_eq_true hptr
    have hslots : allocTable none true used = newSlots tableLen used := rfl
    rw [htrue, hslots] at hfree
    -- the slots in the memory for the table are set to zero
    have hclear : ∀ i < tableLen, ∀ d, (newSlots tableLen used)[i]? = some d → d = .unset := by
      intro i hi d hd
      rcases getElem?_newSlots hd with he | ⟨hge, -⟩
      · exact he
      · omega
    have hown : ∀ i < tableLen, (newSlots tableLen used)[i]? ≠ some .other := by
      intro i hi hother
      cases hclear i hi _ hother
    have hback' : (t.allocDescriptors ptr).Backed (heldBy ref (newSlots tableLen used)) := by
      refine ⟨hback.table, fun i hi _ => hback.unused i hi rfl, fun i hi e he => ?_⟩
      obtain ⟨d, hslot, hd⟩ := Option.bind_eq_some_iff.mp he
      rw [hclear i hi d hslot] at hd
      cases hd
    rw [htrue, Kernel.taskPutDesc, hslots, if_pos (.inr rfl)]
    exact hback'.putLoop (length_newSlots tableLen used) hown hd (Nat.zero_le k) hkn hk hfree

/-- **`task_get_desc`** on the words finds what it finds in the list, of the slots that there is memory for. -/
theorem Represents.get {table : Option (List Descriptor)} (h : t.Represents ref table) {i : ℕ} (hi : i < tableLen)
    (used : Bool) :
    t.lookup (Int16.ofNat i) = (Kernel.taskGetDesc table (Int16.ofNat i) used).bind (Descriptor.words ref) := by
  cases table with
  | none =>
    rw [lookup, taskGetDesc_of_null h]
    rfl
  | some table =>
    have hmax : i < maxFd := hi.trans (by decide)
    have hin : 0 ≤ Int16.ofNat i := Int16.not_lt.mp (int16_not_neg_of_lt (hi.trans (by decide)))
    have hnat : (Int16.ofNat i).toNatClampNeg = i := Int16.toNatClampNeg_ofNat_of_lt (hi.trans (by decide))
    have hlt : i < table.length := h.1 ▸ hmax
    have hslot : slotAt table (Int16.ofNat i) used = table[i] := by
      rw [slotAt, hnat, if_pos ⟨hin, hmax⟩, List.getD_eq_getElem?_getD, List.getElem?_eq_getElem hlt, Option.getD_some]
    rw [h.2.2.lookup hi, heldBy, Kernel.taskGetDesc, Option.bind_some, hslot, List.getElem?_eq_getElem hlt,
      Option.bind_some]
    split_ifs with hunset
    · rfl
    · rw [not_not.mp hunset]
      rfl

/-- **`task_reset_desc`** on the words does what it does on the list. -/
theorem Represents.reset (h : t.Represents ref (some table)) {i : ℕ} (hi : i < tableLen) :
    (t.taskResetDesc (Int16.ofNat i)).1.Represents ref (some (Kernel.taskResetDesc table (Int16.ofNat i))) := by
  have hlt : i < table.length := h.1 ▸ hi.trans (by decide)
  rw [taskResetDesc_eq, Kernel.taskResetDesc, Int16.toNatClampNeg_ofNat_of_lt (hi.trans (by decide))]
  refine ⟨(List.length_set ..).trans h.1, ne_other_set h.2.1 (by simp), ?_⟩
  rw [heldBy_set hlt]
  exact h.2.2.reset hi

end DescTask

end Represents

/-! ## Runs -/

namespace DescRun

variable {s s' : DescRun}

/-- The table is not allocated and holds nothing, or the first 8 slots are what they hold, and the others
hold nothing. -/
def Inv (s : DescRun) : Prop :=
  (s.task.descriptors = 0 ∧ s.bytes = 0 ∧ ∀ i, s.held i = none) ∨
    (s.bytes = maxFd * sizeofDescT ∧ s.task.Backed s.held ∧ ∀ i, tableLen ≤ i → s.held i = none)

theorem slotWithin_iff {i : ℤ} : SlotWithin (maxFd * sizeofDescT) i ↔ 0 ≤ i ∧ i < tableLen := by
  have hlen : tableLen = 8 := rfl
  simp only [SlotWithin, sizeofDescriptor, maxFd, sizeofDescT, hlen]
  omega

/-- With the invariant, the slots in use are looked up. -/
theorem Inv.gets (h : s.Inv) {i : ℕ} {d : Word × Word} (hd : s.held i = some d) :
    s.task.lookup (Int16.ofNat i) = some d ∧
      ∀ j ∈ (s.task.taskGetDesc (Int16.ofNat i)).2, SlotWithin s.bytes j := by
  rcases h with ⟨-, -, hnone⟩ | ⟨hbytes, hback, hupper⟩
  · exact absurd (hd.symm.trans (hnone i)) (by simp)
  · have hi : i < tableLen := by
      by_contra hge
      exact absurd (hd.symm.trans (hupper i (by omega))) (by simp)
    have hsmall : i < 2 ^ 15 := hi.trans (by decide)
    refine ⟨(hback.lookup hi).trans hd, fun j hj => ?_⟩
    rw [DescTask.mem_taskGetDesc hj, int16_toInt_of_lt hsmall, hbytes, slotWithin_iff]
    omega

/-- There is a lowest slot that is not in use, or the first 8 are in use. -/
theorem lowestUnused_or (held : ℕ → Option (Word × Word)) :
    (∃ i < tableLen, LowestUnused held i) ∨ ∀ i < tableLen, held i ≠ none := by
  by_cases hfree : ∃ i, held i = none
  · rcases Nat.lt_or_ge (Nat.find hfree) tableLen with hlt | hge
    · exact .inl ⟨_, hlt, Nat.find_spec hfree, fun j hj => Nat.find_min hfree hj⟩
    · exact .inr fun i hi => Nat.find_min hfree (hi.trans_le hge)
  · exact .inr fun i _ => not_exists.mp hfree i

/-- The table that `task_put_desc` goes through: allocated, and what the slots hold. -/
theorem Inv.backed_alloc (h : s.Inv) {ptr : Word} (htable : s.task.descriptors ≠ 0 ∨ ptr ≠ 0) :
    (s.task.allocDescriptors ptr).Backed s.held ∧
      (∀ i < tableLen, (s.task.allocDescriptors ptr).wordAt (4 * i + 2) = s.oldHandle i) ∧
      (if s.task.descriptors = 0 ∧ ptr ≠ 0 then maxFd * sizeofDescT else s.bytes) = maxFd * sizeofDescT ∧
      ∀ i, tableLen ≤ i → s.held i = none := by
  rcases h with ⟨hnull, -, hnone⟩ | ⟨hbytes, hback, hupper⟩
  · -- the table is allocated by this call, and `calloc` has set it to zero
    have hptr := htable.resolve_left (not_not.mpr hnull)
    obtain ⟨hback, hzero⟩ := DescTask.backed_allocDescriptors hnull hptr
    rw [← funext hnone] at hback
    refine ⟨hback, fun i hi => ?_, if_pos ⟨hnull, hptr⟩, fun i _ => hnone i⟩
    rw [hzero i hi, oldHandle, if_pos hnull]
  · have hsame : s.task.allocDescriptors ptr = s.task := if_neg hback.table
    rw [hsame]
    refine ⟨hback, fun i _ => ?_, ?_, hupper⟩
    · rw [oldHandle, if_neg hback.table, DescTask.handleAt_ofNat]
    · rw [if_neg fun hnull => hback.table hnull.1, hbytes]

/-- **A descriptor that is put in a slot with memory**: the state after it. -/
theorem Inv.step_put (h : s.Inv) {type handle ptr : Word} (htable : s.task.descriptors ≠ 0 ∨ ptr ≠ 0) {i : ℕ}
    (hi : i < tableLen) (hlow : LowestUnused s.held i) :
    ∃ slots, (∀ j ∈ slots, SlotWithin (maxFd * sizeofDescT) j) ∧
      s.step (.put type handle ptr) = some
        { task := (s.task.allocDescriptors ptr).taskSetDesc
            ((s.task.allocDescriptors ptr).slot (BitVec.ofNat 16 i)) type handle
          bytes := maxFd * sizeofDescT
          held := Function.update s.held i (some (type, handle))
          slots := slots
          answer := some (s.held, Int16.ofNat i) } := by
  have hlen : tableLen = 8 := rfl
  obtain ⟨hback, -, hbytes, -⟩ := h.backed_alloc htable
  have hused : ∀ j, 0 ≤ j → j < i → (s.task.allocDescriptors ptr).wordAt (4 * j) ≠ descUnset := by
    intro j _ hj
    obtain ⟨d, hd⟩ := Option.ne_none_iff_exists'.mp (hlow.2 j hj)
    obtain ⟨hunset, htype, -⟩ := hback.used j (by omega) d hd
    rw [htype]
    exact hunset
  have hfd : maxFd = 16 := rfl
  obtain ⟨slots, hloop, hslots⟩ := DescTask.putLoop_eq type handle (Nat.zero_le i)
    (show i < 0 + maxFd by omega) hused (hback.unused i hi hlow.1)
  refine ⟨slots, fun j hj => ?_, ?_⟩
  · obtain ⟨hpos, hle⟩ := hslots j hj
    rw [slotWithin_iff]
    omega
  · have hsmall : i < 2 ^ 15 := by omega
    have hpos : ¬ Int16.ofNat i < 0 := int16_not_neg_of_lt hsmall
    simp only [step, DescTask.taskPutDesc, hloop, hbytes, if_neg hpos, int16_toInt_of_lt hsmall,
      Int.toNat_natCast]

/-- A slot that is in use is in the memory of the table. -/
theorem Inv.lt_of_held (h : s.Inv) {i : ℕ} (hheld : (s.held i).isSome) :
    i < tableLen ∧ s.bytes = maxFd * sizeofDescT ∧ s.task.Backed s.held ∧
      ∀ i, tableLen ≤ i → s.held i = none := by
  rcases h with ⟨-, -, hnone⟩ | ⟨hbytes, hback, hupper⟩
  · rw [hnone i] at hheld
    exact absurd hheld (by simp)
  · refine ⟨?_, hbytes, hback, hupper⟩
    by_contra hge
    rw [hupper i (by omega)] at hheld
    exact absurd hheld (by simp)

theorem Inv.step_reset (h : s.Inv) {i : ℕ} (hs : s.step (.reset i) = some s') :
    s'.Inv ∧ s'.answer = s.answer ∧ ∀ j ∈ s'.slots, SlotWithin s'.bytes j := by
  rw [DescRun.step, DescTask.taskResetDesc_eq] at hs
  split_ifs at hs with hheld
  obtain rfl := Option.some.inj hs
  obtain ⟨hi, hbytes, hback, hupper⟩ := h.lt_of_held hheld.2
  refine ⟨.inr ⟨hbytes, hback.reset hi, fun j hj => ?_⟩, rfl, fun j hj => ?_⟩
  · have hne : j ≠ i := by omega
    exact (Function.update_of_ne hne _ _).trans (hupper j hj)
  · have hsmall : i < 2 ^ 15 := hi.trans (by decide)
    rw [List.mem_singleton.mp hj, int16_toInt_of_lt hsmall]
    dsimp only
    rw [hbytes, slotWithin_iff]
    omega

/-- What is stored elsewhere is not in the table. -/
theorem Inv.step_store (h : s.Inv) {a value : Word} (hs : s.step (.store a value) = some s') :
    s'.Inv ∧ s'.answer = s.answer ∧ ∀ j ∈ s'.slots, SlotWithin s'.bytes j := by
  rw [DescRun.step] at hs
  split_ifs at hs with hapart
  obtain rfl := Option.some.inj hs
  refine ⟨?_, rfl, nofun⟩
  rcases h with hempty | ⟨hbytes, hback, hupper⟩
  · exact .inl hempty
  · have hlen : tableLen = 8 := rfl
    -- a word of the table is not the one that is stored: its offset is less than the size
    have hword : ∀ k < 32,
        DescTask.wordAt { s.task with mem := Function.update s.task.mem a value } k = s.task.wordAt k := by
      intro k hk
      refine Function.update_of_ne (fun heq : s.task.descriptors + BitVec.ofNat 16 k = a => ?_) _ _
      have hle := hapart.1
      rw [← heq, add_sub_cancel_left, BitVec.toNat_ofNat, Nat.mod_eq_of_lt (by omega), hbytes] at hle
      exact absurd hle (Nat.not_le.mpr hk)
    refine .inr ⟨hbytes, ⟨hback.table, fun i hi hnone => ?_, fun i hi d hd => ?_⟩, hupper⟩
    · rw [hword _ (by omega)]
      exact hback.unused i hi hnone
    · rw [hword _ (by omega), hword _ (by omega)]
      exact hback.used i hi d hd

/-- **The steps that keep the map.** -/
theorem Inv.step (h : s.Inv) (hmap : s.IsMap) {op : DescOp} (hfits : s.Fits op) (hs : s.step op = some s') :
    s'.Inv ∧ s'.IsMap := by
  cases op with
  | put type handle ptr =>
    obtain ⟨htable, i, hi, hlow, hunset, hstored⟩ := hfits
    obtain ⟨slots, hslots, hput⟩ := @step_put s h type handle ptr htable i hi hlow
    obtain ⟨hback, hold, -, hupper⟩ := h.backed_alloc htable
    obtain rfl := Option.some.inj (hput.symm.trans hs)
    have hinv : Inv
        { task := (s.task.allocDescriptors ptr).taskSetDesc
            ((s.task.allocDescriptors ptr).slot (BitVec.ofNat 16 i)) type handle
          bytes := maxFd * sizeofDescT
          held := Function.update s.held i (some (type, handle))
          slots := slots
          answer := some (s.held, Int16.ofNat i) } := by
      refine .inr ⟨rfl, hback.set hi hunset ?_, fun j hj => ?_⟩
      · rw [hold i hi]
        exact hstored
      · have hne : j ≠ i := by omega
        exact (Function.update_of_ne hne _ _).trans (hupper j hj)
    refine ⟨hinv, hslots, ?_, fun j _ d hd => hinv.gets hd⟩
    rintro _ _ ⟨⟩
    exact .inl ⟨i, hi.trans (by decide), hlow, rfl⟩
  | reset i =>
    obtain ⟨hinv, hanswer, hslots⟩ := h.step_reset hs
    exact ⟨hinv, hslots, fun held ret hr => hmap.answers held ret (hanswer ▸ hr), fun j _ d hd => hinv.gets hd⟩
  | store a value =>
    obtain ⟨hinv, hanswer, hslots⟩ := h.step_store hs
    exact ⟨hinv, hslots, fun held ret hr => hmap.answers held ret (hanswer ▸ hr), fun j _ d hd => hinv.gets hd⟩

/-- What is looked up in the slot that a descriptor was put in: its handle may be the old one. -/
theorem Inv.lookup_put (h : s.Inv) {type handle ptr : Word} (htable : s.task.descriptors ≠ 0 ∨ ptr ≠ 0) {i : ℕ}
    (hi : i < tableLen) :
    ((s.task.allocDescriptors ptr).taskSetDesc
        ((s.task.allocDescriptors ptr).slot (BitVec.ofNat 16 i)) type handle).lookup (Int16.ofNat i) =
      if type ≠ descUnset then
        some (type, if type = descFile ∨ type = descDir then handle else s.oldHandle i)
      else none := by
  have hlen : tableLen = 8 := rfl
  obtain ⟨hback, hold, -, -⟩ := h.backed_alloc htable
  have hne : ((s.task.allocDescriptors ptr).taskSetDesc
      ((s.task.allocDescriptors ptr).slot (BitVec.ofNat 16 i)) type handle).descriptors ≠ 0 := by
    rw [DescTask.descriptors_taskSetDesc]
    exact hback.table
  have hnext : 4 * i + 2 ≠ 4 * i := by omega
  rw [DescTask.lookup_ofNat hne, DescTask.wordAt_taskSetDesc hi (by omega),
    DescTask.wordAt_taskSetDesc hi (by omega), if_pos rfl, if_neg hnext, hold i hi]
  simp only [true_and]

/-- **The steps that lose it.** -/
theorem Inv.lost (h : s.Inv) {op : DescOp} (hfits : ¬ s.Fits op) : ∃ s', s.step op = some s' ∧ ¬ s'.IsMap := by
  have hlen : tableLen = 8 := rfl
  have hfd : maxFd = 16 := rfl
  cases op with
  | reset => exact absurd trivial hfits
  | store => exact absurd trivial hfits
  | put type handle ptr =>
    by_cases htable : s.task.descriptors ≠ 0 ∨ ptr ≠ 0
    · rcases lowestUnused_or s.held with ⟨i, hi, hlow⟩ | hall
      · -- the descriptor is in its slot, but not all of it
        obtain ⟨slots, -, hput⟩ := @step_put s h type handle ptr htable i hi hlow
        refine ⟨_, hput, fun hmap => hfits ⟨htable, i, hi, hlow, ?_⟩⟩
        have hget := (hmap.gets i (by omega) (type, handle) (Function.update_self _ _ _)).1
        rw [h.lookup_put htable hi] at hget
        split_ifs at hget with hunset hkind
        · exact ⟨hunset, or_assoc.mp (.inl hkind)⟩
        · exact ⟨hunset, .inr (.inr (Prod.mk.inj (Option.some.inj hget)).2.symm)⟩
      · -- the ninth slot is read
        obtain ⟨hback, -, hbytes, -⟩ := h.backed_alloc htable
        have hmem : ((8 : ℕ) : ℤ) ∈ (s.task.taskPutDesc ptr type handle).2.2 := by
          refine DescTask.mem_putLoop type handle (by omega) (by omega) fun j _ hj => ?_
          obtain ⟨d, hd⟩ := Option.ne_none_iff_exists'.mp (hall j hj)
          obtain ⟨hunset, htype, -⟩ := hback.used j hj d hd
          rw [htype]
          exact hunset
        refine ⟨_, rfl, fun hmap => ?_⟩
        have hwithin := hmap.within _ hmem
        dsimp only at hwithin
        rw [hbytes, slotWithin_iff] at hwithin
        omega
    · -- the first slot is read through a null pointer
      have hbytes : s.bytes = 0 := by
        rcases h with ⟨-, hzero, -⟩ | ⟨-, hback, -⟩
        · exact hzero
        · exact absurd (.inl hback.table) htable
      have hmem : ((0 : ℕ) : ℤ) ∈ (s.task.taskPutDesc ptr type handle).2.2 :=
        DescTask.mem_putLoop type handle le_rfl (by omega) fun j _ hj => by omega
      refine ⟨_, rfl, fun hmap => ?_⟩
      have hwithin := (hmap.within _ hmem).2
      dsimp only at hwithin
      rw [if_neg fun hnull => htable (.inr hnull.2), hbytes] at hwithin
      exact absurd hwithin (by decide)

end DescRun

/-- **The descriptor table, exactly.** In every run of puts, of resets of slots in use and of stores
elsewhere, from a task without a table and any memory: the table is a map of 16 slots in its own memory in
all states of the run, if and only if every put finds or gets a table, with one of its first 8 slots free,
and stores all of the descriptor. -/
theorem desc_table_map_iff (mem : Word → Word) (ops : List DescOp) :
    Always DescRun.step DescRun.IsMap (DescRun.initial mem) ops ↔
      Steps DescRun.step DescRun.Fits (DescRun.initial mem) ops := by
  have hinv : (DescRun.initial mem).Inv := .inl ⟨rfl, rfl, fun _ => rfl⟩
  have hmap : (DescRun.initial mem).IsMap := ⟨nofun, nofun, nofun⟩
  exact always_iff_steps (I := DescRun.Inv) (fun s op s' hi hm hc hs => hi.step hm hc hs)
    (fun s op hi _ hc => hi.lost hc) hinv hmap

/-- Nine files: the ninth descriptor is written to the four bytes behind the 32 bytes of the table. -/
theorem not_always_isMap_nine :
    ¬ Always DescRun.step DescRun.IsMap (DescRun.initial fun _ => 0)
      (List.replicate 9 (.put descFile 0x4000 0x2000)) := by
  have hrun : (run DescRun.step (DescRun.initial fun _ => 0)
      (List.replicate 9 (.put descFile 0x4000 0x2000))).map (fun s => (s.slots, s.bytes)) =
        some ([0, 1, 2, 3, 4, 5, 6, 7, 8], 32) := by
    decide +kernel
  obtain ⟨s, hs, heq⟩ := Option.map_eq_some_iff.mp hrun
  obtain ⟨hslots, hbytes⟩ := Prod.mk.inj heq
  intro h
  have hwithin := (h.last hs).within 8 (by rw [hslots]; decide)
  rw [hbytes] at hwithin
  exact absurd hwithin.2 (by decide)

end I80k.Kernel

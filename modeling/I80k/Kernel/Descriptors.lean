import I80k.Kernel.SchedulerWakeup
import I80k.Kernel.Fs.Vfs
import I80k.Kernel.Word

/-!
# File descriptors

`sys_open` makes a handle of `fs.c` and gives it to a descriptor of the current task; `sys_close` closes the
handle and takes the descriptor back. Nothing else closes a handle: `scheduler_exit` and `scheduler_wait`
do not look at the descriptors of the task that they end and release.

The table of a task has 16 slots, and is allocated at the first descriptor, with the size of `MAX_FD` values of
`desc_t`: this is memory for 8 of them. What the other slots read as is up to the memory behind the table, and whoever
uses that memory may store to them. If there is no memory for the table, the slots are those at address 0, and
the task goes on without a table.

What is in memory that is not of a table is taken for no descriptor of a file: `sys_close` of such a number is
refused. Handles have identities that are not used again. What a handle points to is in `fs.c`.

## Main definitions

* `Descriptor`, `taskPutDesc`, `taskGetDesc`, `taskResetDesc`: the table of a task
* `Files`, `Files.sysOpen`, `Files.sysClose`: tasks with their tables, and the system calls
* `Files.Owned`: every handle has one descriptor of a task that has not exited, and what was closed is freed
* `Files.Clean`: the step is not a close that fails, nor a file that is opened without a table, nor an exit with a
  descriptor in use

## Main results

* `putLoop_spec`: a descriptor that is set was free, and is in the table
* `Inv.step`, `Inv.lost`: the steps that keep the ownership of handles, and those that lose it
* `handles_owned_iff`: handles are owned along exactly the runs of clean steps
-/

namespace I80k.Kernel

open StepSystem

/-! ## The table of a task -/

/-- The identity of a handle. -/
abbrev FileId := ℕ

/-- `struct descriptor`: its type, and its handle. -/
inductive Descriptor
  | unset
  | file (f : FileId)
  | dir (f : FileId)
  /-- A type that is none of these, in memory that is not of a table. -/
  | other
  deriving DecidableEq

/-- `MAX_FD`. -/
def maxFd : ℕ := 16

/-- The descriptors that `calloc(MAX_FD, sizeof(desc_t))` has memory for; a `desc_t` takes two bytes, a
descriptor four. -/
def tableLen : ℕ := maxFd * 2 / 4

/-- 16 slots, the first ones set to zero; `used` says what the memory of the others reads as. -/
def newSlots (cleared : ℕ) (used : ℕ → Bool) : List Descriptor :=
  (List.range maxFd).map fun i => if cleared ≤ i ∧ used i then .other else .unset

/-- The loop of `task_put_desc` from `i` on, with `n` turns to go. -/
def putLoop (slots : List Descriptor) (d : Descriptor) : ℕ → ℕ → List Descriptor × Int16
  | _, 0 => (slots, errNoMem)
  | i, n + 1 => if slots[i]? = some .unset then (slots.set i d, Int16.ofNat i) else putLoop slots d (i + 1) n

/-- The slots that `task_put_desc` goes through: of the table, that is allocated if it was not; `alloc` says whether
`calloc` succeeds. -/
def allocTable (table : Option (List Descriptor)) (alloc : Bool) (used : ℕ → Bool) : List Descriptor :=
  table.getD (newSlots (if alloc then tableLen else 0) used)

/-- The table, and the result. The pointer to the table stays null if `calloc` fails. -/
def taskPutDesc (table : Option (List Descriptor)) (alloc : Bool) (used : ℕ → Bool) (d : Descriptor) :
    Option (List Descriptor) × Int16 :=
  let put := putLoop (allocTable table alloc used) d 0 maxFd
  (if table.isSome ∨ alloc then some put.1 else none, put.2)

/-- What a number reads as. `used` says it for a number that is not one of the 16. -/
def slotAt (slots : List Descriptor) (fd : Int16) (used : Bool) : Descriptor :=
  if 0 ≤ fd ∧ fd.toNatClampNeg < maxFd then slots.getD fd.toNatClampNeg .unset
  else if used then .other
  else .unset

/-- The descriptor, or a null pointer. -/
def taskGetDesc (table : Option (List Descriptor)) (fd : Int16) (used : Bool) : Option Descriptor :=
  table.bind fun slots => if slotAt slots fd used ≠ .unset then some (slotAt slots fd used) else none

def taskResetDesc (table : List Descriptor) (fd : Int16) : List Descriptor :=
  table.set fd.toNatClampNeg .unset

/-! ## The system calls -/

/-- Tasks with their descriptors. -/
structure Files where
  sched : Parents
  vfs : Vfs
  /-- The field `descriptors` of a task, null from `calloc`. -/
  tables : TaskId → Option (List Descriptor)
  /-- The handles that were created and not freed. -/
  live : List (FileId × Handle)
  next : FileId
  /-- The handles whose `sys_close` returned 0. -/
  closed : List FileId

namespace Files

/-- `fs_close_file(handle)` or `fs_close_dir(handle)`, the result of which is not used; `err` is what the
callback of the driver returns. -/
def closeHandle (s : Files) (f : FileId) (close : Vfs → Handle → Int16 → Vfs × Int16) (err : Int16) :
    Option Files :=
  match s.live.find? (·.1 = f) with
  | none => none
  | some (_, h) =>
    let (vfs, ret) := close s.vfs h err
    if ret < 0 then some { s with vfs }
    else some { s with vfs, live := s.live.filter (·.1 ≠ f) }

/-- `task_put_desc` of a new handle, that is closed again if there is no descriptor for it. -/
def putHandle (s : Files) (cur : TaskId) (f : FileId) (allocTable : Bool) (used : ℕ → Bool) (closeErr : Int16) :
    Option (Files × Int16) :=
  let put := taskPutDesc (s.tables cur) allocTable used (.file f)
  let s' := { s with tables := Function.update s.tables cur put.1 }
  if put.2 < 0 then (s'.closeHandle f Vfs.fsCloseFile closeErr).map (·, put.2) else some (s', put.2)

/-- `sys_open(pathname)`. The callbacks of the driver, whether the allocations succeed, and what the memory around
the table reads as, are arguments. -/
def sysOpen (s : Files) (pathname : List Char8) (driver : Callback (Int16 × ℕ)) (alloc allocTable : Bool)
    (used : ℕ → Bool) (closeErr : Int16) : Option (Files × Int16) :=
  s.sched.current.bind fun cur =>
    (s.vfs.fsOpenFile pathname driver alloc).bind fun (vfs, ret) =>
      if ret < 0 then some ({ s with vfs }, ret)
      else
        vfs.handles.head?.bind fun h =>
          ({ s with vfs, live := (s.next, h) :: s.live, next := s.next + 1 } : Files).putHandle cur s.next
            allocTable used closeErr

/-- `sys_close(fd)`. -/
def sysClose (s : Files) (fd : Int16) (used : Bool) (err : Int16) : Option (Files × Int16) :=
  s.sched.current.bind fun cur =>
    -- the table is there if a descriptor is
    let reset (s : Files) : Files × Int16 :=
      ({ s with tables := Function.update s.tables cur ((s.tables cur).map (taskResetDesc · fd)) }, 0)
    match taskGetDesc (s.tables cur) fd used with
    | none => some (s, errInval)
    | some (.file f) => (s.closeHandle f Vfs.fsCloseFile err).map reset
    | some (.dir f) => (s.closeHandle f Vfs.fsCloseDir err).map reset
    | some _ => some (s, errNotSupp)

/-- A store to slot `k` of a task by the owner of the memory behind its table. -/
def overwrite (s : Files) (t : TaskId) (k : ℕ) (used : Bool) : Files :=
  let slot : Descriptor := if used then .other else .unset
  { s with tables := Function.update s.tables t ((s.tables t).map fun slots => slots.set k slot) }

end Files

/-- The steps of the tasks: system calls on files, and those of the scheduler; and what others store behind the
tables. -/
inductive FileOp
  | sched (op : WaitOp)
  | sysOpen (pathname : List Char8) (driver : Callback (Int16 × ℕ)) (alloc allocTable : Bool) (used : ℕ → Bool)
    (closeErr : Int16)
  | sysClose (fd : Int16) (used : Bool) (err : Int16)
  | overwrite (t : TaskId) (k : ℕ) (used : Bool)

namespace Files

/-- A task that is not the idle one, and is not inside of `scheduler_wait`, makes a system call. -/
def MayCall (s : Files) : Prop := s.sched.current ≠ some s.sched.idle ∧ s.sched.inCall = none

instance (s : Files) : Decidable s.MayCall := inferInstanceAs (Decidable (_ ∧ _))

/-- Descriptor `fd` of a task. -/
def desc (s : Files) (t : TaskId) (fd : ℕ) : Option Descriptor := (s.tables t).bind (·[fd]?)

/-- The handle behind a descriptor of the current task. -/
def named (s : Files) (fd : Int16) : Option FileId :=
  s.sched.current.bind fun cur =>
    if fd < 0 then none
    else
      match s.desc cur fd.toNatClampNeg with
      | some (.file f) => some f
      | _ => none

def step (s : Files) : FileOp → Option Files
  | .sched op => (s.sched.step op).map fun sched => { s with sched }
  | .sysOpen pathname driver alloc allocTable used closeErr =>
    if s.MayCall then (s.sysOpen pathname driver alloc allocTable used closeErr).map Prod.fst else none
  | .sysClose fd used err =>
    if s.MayCall then
      (s.sysClose fd used err).map fun (s', ret) =>
        if ret = 0 then { s' with closed := (s.named fd).toList ++ s'.closed } else s'
    else none
  | .overwrite t k used => if tableLen ≤ k ∧ k < maxFd then some (s.overwrite t k used) else none

/-- The booted kernel, with a file system but no handle. -/
def boot (sched : Parents) (vfs : Vfs) : Files := ⟨sched, vfs, fun _ => none, [], 0, []⟩

/-- Every handle that was created and not freed is held by exactly one descriptor of a task that has not
exited, and the handle of a `sys_close` that returned 0 is freed. -/
structure Owned (s : Files) : Prop where
  held : ∀ f ∈ s.live.map Prod.fst, ∃! p : TaskId × ℕ,
    p.1 ∉ s.sched.zombies ∧ s.desc p.1 p.2 = some (.file f)
  freed : ∀ f ∈ s.closed, f ∉ s.live.map Prod.fst

/-- A handle for the task `cur` gets a descriptor of its table, or it gets none and can be closed. -/
def Keeps (s : Files) (cur : TaskId) (alloc : Bool) (used : ℕ → Bool) (closeErr : Int16) : Prop :=
  if .unset ∈ allocTable (s.tables cur) alloc used then (s.tables cur).isSome ∨ alloc else ¬ closeErr < 0

/-- `fs_open_file` makes a handle. -/
def Opens (s : Files) (pathname : List Char8) (driver : Callback (Int16 × ℕ)) (alloc : Bool) : Prop :=
  ∃ r ∈ s.vfs.fsOpenFile pathname driver alloc, ¬ r.2 < 0

/-- The step is not a `sys_open` that gives a handle to no table, or has no descriptor for it and cannot close it;
not a `sys_close` of a handle that the driver fails to close; not the exit of a task, other than the main one, that
has a descriptor in use; and not a store to a descriptor behind the memory of its table. -/
def Clean (s : Files) : FileOp → Prop
  | .sysOpen pathname driver alloc allocTable used closeErr => s.MayCall → s.Opens pathname driver alloc →
    ∀ cur, s.sched.current = some cur → s.Keeps cur allocTable used closeErr
  | .sysClose fd _ err => s.MayCall → ∀ f, s.named fd = some f → ¬ err < 0
  | .sched (.exit status) => s.sched.Admits (.exit status) → ∀ cur, s.sched.current = some cur →
    (s.sched.tasks cur).pid ≠ 0 → ∀ fd f, s.desc cur fd ≠ some (.file f)
  | .overwrite t k _ => tableLen ≤ k → k < maxFd → ∀ f, s.desc t k ≠ some (.file f)
  | _ => True

end Files

/-! ## What the operations on a table do -/

theorem length_newSlots (cleared : ℕ) (used : ℕ → Bool) : (newSlots cleared used).length = maxFd := by
  simp [newSlots]

theorem getElem?_newSlots {cleared k : ℕ} {used : ℕ → Bool} {d : Descriptor}
    (h : (newSlots cleared used)[k]? = some d) : d = .unset ∨ cleared ≤ k ∧ d = .other := by
  obtain ⟨hk, rfl⟩ := List.getElem?_eq_some_iff.mp h
  simp only [newSlots, List.getElem_map, List.getElem_range]
  split_ifs with hused
  · exact .inr ⟨hused.1, rfl⟩
  · exact .inl rfl

/-- The loop ends at the first descriptor that is free, or there is none. -/
theorem putLoop_spec (slots : List Descriptor) (d : Descriptor) (i n : ℕ) :
    (∃ k, i ≤ k ∧ k < i + n ∧ slots[k]? = some .unset ∧ putLoop slots d i n = (slots.set k d, Int16.ofNat k)) ∨
      (∀ k, i ≤ k → k < i + n → slots[k]? ≠ some .unset) ∧ putLoop slots d i n = (slots, errNoMem) := by
  induction n generalizing i with
  | zero => exact .inr ⟨fun k _ _ => by omega, rfl⟩
  | succ n ih =>
    rw [putLoop]
    by_cases hfree : slots[i]? = some .unset
    · rw [if_pos hfree]
      exact .inl ⟨i, le_rfl, by omega, hfree, rfl⟩
    · rw [if_neg hfree]
      rcases ih (i + 1) with ⟨k, hik, hk, hunset, heq⟩ | ⟨hall, heq⟩
      · exact .inl ⟨k, by omega, by omega, hunset, heq⟩
      · refine .inr ⟨fun k hik hk => ?_, heq⟩
        rcases Nat.eq_or_lt_of_le hik with rfl | hlt
        · exact hfree
        · exact hall k hlt (by omega)

/-- A descriptor that `task_get_desc` returns is set; if it is that of a handle, it is in the table. -/
theorem taskGetDesc_eq_some {table : Option (List Descriptor)} {fd : Int16} {used : Bool} {d : Descriptor}
    (h : taskGetDesc table fd used = some d) :
    d ≠ .unset ∧ (d = .other ∨ ∃ slots, table = some slots ∧ ¬ fd < 0 ∧ slots[fd.toNatClampNeg]? = some d) := by
  obtain ⟨slots, rfl, hd⟩ := Option.bind_eq_some_iff.mp h
  split_ifs at hd with hne
  obtain rfl := Option.some.inj hd
  refine ⟨hne, ?_⟩
  rw [slotAt] at hne ⊢
  split_ifs at hne ⊢ with hin
  · refine .inr ⟨slots, rfl, Int16.not_lt.mpr hin.1, ?_⟩
    rw [List.getD_eq_getElem?_getD] at hne ⊢
    cases hslot : slots[fd.toNatClampNeg]? with
    | none =>
      rw [hslot] at hne
      exact absurd rfl hne
    | some x => rfl
  · exact .inl rfl
  · exact absurd rfl hne

/-- The descriptor of a handle is found. -/
theorem taskGetDesc_of_file {slots : List Descriptor} {fd : Int16} {used : Bool} {f : FileId} (hfd : ¬ fd < 0)
    (hlen : slots.length = maxFd) (h : slots[fd.toNatClampNeg]? = some (.file f)) :
    taskGetDesc (some slots) fd used = some (.file f) := by
  have hlt : fd.toNatClampNeg < maxFd := hlen ▸ (List.getElem?_eq_some_iff.mp h).1
  have hslot : slotAt slots fd used = .file f := by
    rw [slotAt, if_pos ⟨Int16.not_lt.mp hfd, hlt⟩, List.getD_eq_getElem?_getD, h, Option.getD_some]
  rw [taskGetDesc, Option.bind_some, hslot, if_pos (by simp)]

namespace Files

/-- The descriptor `fd` of the task `t` holds the handle. -/
def Holds (s : Files) (t : TaskId) (fd : ℕ) (f : FileId) : Prop := s.desc t fd = some (.file f)

/-- The tables and the handles belong together; a task that exited holds nothing. -/
structure Inv (s : Files) : Prop where
  sched : s.sched.Inv
  len : ∀ t table, s.tables t = some table → table.length = maxFd
  noDir : ∀ t fd f, s.desc t fd ≠ some (.dir f)
  live : ∀ t fd f, s.Holds t fd f → f ∈ s.live.map Prod.fst
  zombies : ∀ t ∈ s.sched.zombies, ∀ fd f, ¬ s.Holds t fd f
  fresh : ∀ f ∈ s.live.map Prod.fst, f < s.next
  closedFresh : ∀ f ∈ s.closed, f < s.next

/-- What a step of `sys_open` does: the handle is held by a descriptor, or it is gone, or it is held by none. -/
inductive Opened (s s' : Files) (cur : TaskId) (opens keeps : Prop) : Prop
  | failed (hopens : ¬ opens) (sched : s'.sched = s.sched) (tables : s'.tables = s.tables) (live : s'.live = s.live)
    (next : s'.next = s.next) (closed : s'.closed = s.closed)
  | opened (hopens : opens) (hkeeps : keeps) (k : ℕ) (h : Handle) (sched : s'.sched = s.sched)
    (len : ∀ t table, s'.tables t = some table → table.length = maxFd)
    (holds : ∀ t fd f, s'.Holds t fd f ↔ (t = cur ∧ fd = k ∧ f = s.next) ∨ s.Holds t fd f)
    (noDir : ∀ t fd f, s'.desc t fd ≠ some (.dir f))
    (live : s'.live = (s.next, h) :: s.live)
    (next : s'.next = s.next + 1) (closed : s'.closed = s.closed)
  | refused (hopens : opens) (hkeeps : keeps) (sched : s'.sched = s.sched) (tables : s'.tables = s.tables)
    (live : s'.live = s.live) (next : s'.next = s.next + 1) (closed : s'.closed = s.closed)
  | leaked (hopens : opens) (hkeeps : ¬ keeps) (h : Handle) (sched : s'.sched = s.sched)
    (tables : s'.tables = s.tables) (live : s'.live = (s.next, h) :: s.live)

/-- What a step of `sys_close` of a handle does; it fails if the driver does. -/
structure Closed (s s' : Files) (fd : ℕ) (f : FileId) (cur : TaskId) (err : Int16) : Prop where
  holds : s.Holds cur fd f
  sched : s'.sched = s.sched
  len : ∀ t table, s'.tables t = some table → table.length = maxFd
  holds_iff : ∀ t k g, s'.Holds t k g ↔ s.Holds t k g ∧ ¬ (t = cur ∧ k = fd)
  noDir : ∀ t k g, s'.desc t k ≠ some (.dir g)
  live : s'.live = if err < 0 then s.live else s.live.filter (·.1 ≠ f)
  next : s'.next = s.next

variable {s s' : Files} {cur : TaskId} {alloc allocT : Bool} {used : ℕ → Bool} {closeErr : Int16}

/-- Writing to a table: the other descriptors stay. -/
theorem desc_update {tables : TaskId → Option (List Descriptor)} {t : TaskId} {table : List Descriptor}
    {k j : ℕ} {d : Descriptor} (hk : k < table.length) :
    (Function.update tables cur (some (table.set k d)) t).bind (·[j]?) =
      if t = cur then (if j = k then some d else table[j]?) else (tables t).bind (·[j]?) := by
  by_cases ht : t = cur
  · subst ht
    rw [Function.update_self, if_pos rfl, Option.bind_some]
    by_cases hj : j = k
    · rw [if_pos hj, hj, List.getElem?_set_self hk]
    · rw [if_neg hj, List.getElem?_set_ne (Ne.symm hj)]
  · rw [Function.update_of_ne ht, if_neg ht]

theorem len_update {tables : TaskId → Option (List Descriptor)} {table : List Descriptor}
    {k : ℕ} {d : Descriptor} (hlen : ∀ t table, tables t = some table → table.length = maxFd)
    (htable : table.length = maxFd) :
    ∀ t table', Function.update tables cur (some (table.set k d)) t = some table' →
      table'.length = maxFd := by
  intro t table' ht
  by_cases htc : t = cur
  · subst htc
    rw [Function.update_self] at ht
    obtain rfl := Option.some.inj ht
    rw [List.length_set, htable]
  · rw [Function.update_of_ne htc] at ht
    exact hlen t table' ht

theorem length_allocTable (hi : s.Inv) (cur : TaskId) (alloc : Bool) (used : ℕ → Bool) :
    (allocTable (s.tables cur) alloc used).length = maxFd := by
  cases htable : s.tables cur with
  | none => exact length_newSlots _ used
  | some table => exact hi.len cur table htable

/-- Slots that are no table hold nothing. -/
theorem allocTable_iff {j : ℕ} {d : Descriptor} (hunset : d ≠ .unset) (hother : d ≠ .other) :
    (allocTable (s.tables cur) alloc used)[j]? = some d ↔ s.desc cur j = some d := by
  rw [desc]
  cases s.tables cur with
  | some table => rfl
  | none =>
    refine ⟨fun h => ?_, nofun⟩
    rcases getElem?_newSlots h with he | ⟨-, he⟩
    · exact absurd he hunset
    · exact absurd he hother

/-- What is set after a write to a table of the current task. -/
theorem desc_set_iff {k : ℕ} (d : Descriptor) (hk : k < (allocTable (s.tables cur) alloc used).length) (t : TaskId)
    (j : ℕ) {d' : Descriptor} (hunset : d' ≠ .unset) (hother : d' ≠ .other) :
    (Function.update s.tables cur (some ((allocTable (s.tables cur) alloc used).set k d)) t).bind (·[j]?) = some d' ↔
      if t = cur ∧ j = k then d = d' else s.desc t j = some d' := by
  rw [desc_update hk]
  by_cases ht : t = cur
  · subst ht
    by_cases hj : j = k
    · simp [hj]
    · simp [hj, allocTable_iff hunset hother]
  · simp [ht, desc]

/-- Writing a handle to a free slot of a table: it is held there, and what was held is held as before. -/
theorem holds_set_iff {k : ℕ} {f : FileId} (hunset : (allocTable (s.tables cur) alloc used)[k]? = some .unset)
    (t : TaskId) (j : ℕ) (g : FileId) :
    (Function.update s.tables cur (some ((allocTable (s.tables cur) alloc used).set k (.file f))) t).bind (·[j]?) =
        some (.file g) ↔
      (t = cur ∧ j = k ∧ g = f) ∨ s.Holds t j g := by
  have hk : k < (allocTable (s.tables cur) alloc used).length := (List.getElem?_eq_some_iff.mp hunset).1
  refine (desc_set_iff (.file f) hk t j (by simp) (by simp)).trans ?_
  split_ifs with hat
  · obtain ⟨rfl, rfl⟩ := hat
    -- the slot held nothing
    have hnot : ¬ s.Holds t j g := by
      intro hh
      have hset : (allocTable (s.tables t) alloc used)[j]? = some (.file g) :=
        (allocTable_iff (by simp) (by simp)).mpr hh
      rw [hunset] at hset
      cases hset
    simp [hnot, eq_comm]
  · have hne : ¬ (t = cur ∧ j = k ∧ g = f) := fun h => hat ⟨h.1, h.2.1⟩
    simp [hne, Holds]

/-- If no slot is free the table is the one that the task had: a new one is not full. -/
theorem table_of_full {table : Option (List Descriptor)} (hfull : .unset ∉ allocTable table alloc used) :
    (if table.isSome ∨ alloc then some (allocTable table alloc used) else none) = table := by
  cases table with
  | some slots => rfl
  | none =>
    rw [if_neg]
    rintro (hsome | rfl)
    · cases hsome
    · refine hfull ?_
      rw [allocTable, Option.getD_none, newSlots]
      exact List.mem_map.mpr ⟨0, by simp [maxFd], by simp [tableLen, maxFd]⟩

/-- No handle has the next identity. -/
theorem Inv.filter_next (hi : s.Inv) : s.live.filter (·.1 ≠ s.next) = s.live := by
  refine List.filter_eq_self.mpr fun p hp => ?_
  have hlt := hi.fresh p.1 (List.mem_map_of_mem hp)
  simpa using hlt.ne

theorem closeHandle_file {f : FileId} {err : Int16} (h : s.closeHandle f Vfs.fsCloseFile err = some s') :
    s'.sched = s.sched ∧ s'.tables = s.tables ∧ s'.next = s.next ∧ s'.closed = s.closed ∧
      s'.live = if err < 0 then s.live else s.live.filter (·.1 ≠ f) := by
  unfold closeHandle at h
  split at h
  · cases h
  · by_cases herr : err < 0
    · simp only [Vfs.fsCloseFile, if_pos herr, Option.some.injEq] at h
      subst h
      exact ⟨rfl, rfl, rfl, rfl, (if_pos herr).symm⟩
    · simp only [Vfs.fsCloseFile, if_neg herr] at h
      rw [if_neg (by decide), Option.some.injEq] at h
      subst h
      exact ⟨rfl, rfl, rfl, rfl, (if_neg herr).symm⟩

/-- A handle that was not freed can be closed. -/
theorem exists_closeHandle {f : FileId} {err : Int16} (hf : f ∈ s.live.map Prod.fst) :
    ∃ s', s.closeHandle f Vfs.fsCloseFile err = some s' := by
  obtain ⟨p, hp⟩ : ∃ p, s.live.find? (·.1 = f) = some p := by
    rw [← Option.isSome_iff_exists, List.find?_isSome]
    obtain ⟨p, hp, hf⟩ := List.mem_map.mp hf
    exact ⟨p, hp, by simpa using hf⟩
  unfold closeHandle
  rw [hp]
  dsimp only
  split_ifs <;> exact ⟨_, rfl⟩

/-- **The end of `sys_open`**, with a new handle. -/
theorem putHandle_opened (hi : s.Inv) {vfs : Vfs} {h : Handle} {opens : Prop} (hopens : opens) :
    ∃ s' ret, ({ s with vfs, live := (s.next, h) :: s.live, next := s.next + 1 } : Files).putHandle cur s.next
        allocT used closeErr = some (s', ret) ∧ Opened s s' cur opens (s.Keeps cur allocT used closeErr) := by
  have hlen := length_allocTable hi cur allocT used
  rcases putLoop_spec (allocTable (s.tables cur) allocT used) (.file s.next) 0 maxFd with
    ⟨k, -, hk, hunset, hput⟩ | ⟨hall, hput⟩
  · have hklt : k < (allocTable (s.tables cur) allocT used).length := (List.getElem?_eq_some_iff.mp hunset).1
    have hmem : Descriptor.unset ∈ allocTable (s.tables cur) allocT used := List.mem_of_getElem? hunset
    -- a number of a slot is an `int`
    have hpos : ¬ Int16.ofNat k < 0 := int16_not_neg_of_lt (hk.trans (by decide))
    let s₁ : Files := { s with
      vfs, live := (s.next, h) :: s.live, next := s.next + 1
      tables := Function.update s.tables cur (if (s.tables cur).isSome ∨ allocT then
        some ((allocTable (s.tables cur) allocT used).set k (.file s.next)) else none) }
    refine ⟨s₁, Int16.ofNat k, by simp only [putHandle, taskPutDesc, hput, if_neg hpos, s₁], ?_⟩
    by_cases htable : (s.tables cur).isSome ∨ allocT = true
    · have hkeeps : s.Keeps cur allocT used closeErr := by
        rw [Keeps, if_pos hmem]
        exact htable
      refine .opened hopens hkeeps k h rfl ?_ ?_ ?_ rfl rfl rfl
      · simp only [s₁, if_pos htable]
        exact len_update hi.len hlen
      · intro t fd f
        simp only [s₁, Holds, desc, if_pos htable]
        exact holds_set_iff hunset t fd f
      · intro t fd f hdir
        simp only [desc, s₁, if_pos htable] at hdir
        have hset := (desc_set_iff (.file s.next) hklt t fd (by simp) (by simp)).mp hdir
        rw [if_neg] at hset
        · exact hi.noDir t fd f hset
        · intro hat
          rw [if_pos hat] at hset
          cases hset
    · -- the slot is not one of a table
      have hnull : s.tables cur = none := by
        cases hnone : s.tables cur with
        | none => rfl
        | some table => exact absurd (.inl (by rw [hnone]; rfl)) htable
      refine .leaked hopens ?_ h rfl ?_ rfl
      · rw [Keeps, if_pos hmem]
        exact htable
      · simp only [s₁, if_neg htable, ← hnull]
        exact Function.update_eq_self _ _
  · -- all slots are in use: the handle is closed again
    have hmem : Descriptor.unset ∉ allocTable (s.tables cur) allocT used := by
      intro hmem
      obtain ⟨k, hk, hunset⟩ := List.mem_iff_getElem.mp hmem
      refine hall k (Nat.zero_le k) (by omega) ?_
      rw [List.getElem?_eq_getElem hk, hunset]
    let s₁ : Files := { s with
      vfs, live := (s.next, h) :: s.live, next := s.next + 1, tables := Function.update s.tables cur (s.tables cur) }
    obtain ⟨s₂, hclose⟩ := @exists_closeHandle s₁ s.next closeErr (by simp [s₁])
    obtain ⟨hsched, htab, hnext, hclosed, hlive⟩ := closeHandle_file hclose
    have htab' : s₂.tables = s.tables := htab.trans (Function.update_eq_self _ _)
    refine ⟨s₂, errNoMem, ?_, ?_⟩
    · simp only [putHandle, taskPutDesc, hput, table_of_full hmem]
      rw [if_pos (by decide)]
      exact congrArg _ hclose
    · by_cases herr : closeErr < 0
      · refine .leaked hopens ?_ h hsched htab' ?_
        · rw [Keeps, if_neg hmem]
          exact not_not.mpr herr
        · rw [hlive, if_pos herr]
      · refine .refused hopens ?_ hsched htab' ?_ hnext hclosed
        · rw [Keeps, if_neg hmem]
          exact herr
        · rw [hlive, if_neg herr]
          simpa [s₁] using hi.filter_next

/-- `sys_open`, and what becomes of the handle that it makes. -/
theorem sysOpen_opened {pathname : List Char8} {driver : Callback (Int16 × ℕ)} {ret : Int16} (hi : s.Inv)
    (hcur : s.sched.current = some cur)
    (h : s.sysOpen pathname driver alloc allocT used closeErr = some (s', ret)) :
    Opened s s' cur (s.Opens pathname driver alloc) (s.Keeps cur allocT used closeErr) := by
  rw [sysOpen, hcur, Option.bind_some] at h
  obtain ⟨⟨vfs, ret₁⟩, hopen, h⟩ := Option.bind_eq_some_iff.mp h
  by_cases hret : ret₁ < 0
  · simp only [if_pos hret, Option.some.injEq, Prod.mk.injEq] at h
    obtain ⟨rfl, -⟩ := h
    refine .failed ?_ rfl rfl rfl rfl rfl
    rintro ⟨r, hr, hpos⟩
    obtain rfl := Option.some.inj (hopen.symm.trans hr)
    exact hpos hret
  · simp only [if_neg hret] at h
    obtain ⟨hd, -, h⟩ := Option.bind_eq_some_iff.mp h
    obtain ⟨s₁, ret₂, hput, hopened⟩ := @putHandle_opened s cur allocT used closeErr hi vfs hd
      (s.Opens pathname driver alloc) ⟨(vfs, ret₁), hopen, hret⟩
    obtain ⟨rfl, -⟩ := Prod.mk.inj (Option.some.inj (hput.symm.trans h))
    exact hopened

/-- `fs_open_file` returns a handle if it does not fail. -/
theorem exists_sysOpen {pathname : List Char8} {driver : Callback (Int16 × ℕ)} (hi : s.Inv)
    (hcur : s.sched.current = some cur) (hopens : s.Opens pathname driver alloc) :
    ∃ s' ret, s.sysOpen pathname driver alloc allocT used closeErr = some (s', ret) := by
  obtain ⟨⟨vfs, ret⟩, hopen, hret⟩ := hopens
  have hhandle : ∃ h, vfs.handles.head? = some h := by
    have hopen : s.vfs.fsOpenFile pathname driver alloc = some (vfs, ret) := hopen
    rw [Vfs.fsOpenFile] at hopen
    split at hopen
    · obtain ⟨rfl, rfl⟩ := Prod.mk.inj (Option.some.inj hopen)
      exact absurd (show errNoEntry < 0 by decide) hret
    · dsimp only at hopen
      split_ifs at hopen with herr halloc
      · obtain ⟨-, rfl⟩ := Prod.mk.inj (Option.some.inj hopen)
        exact absurd herr hret
      · obtain ⟨rfl, -⟩ := Prod.mk.inj (Option.some.inj hopen)
        exact ⟨_, rfl⟩
  obtain ⟨hd, hhd⟩ := hhandle
  obtain ⟨s', ret', hput, -⟩ := @putHandle_opened s cur allocT used closeErr hi vfs hd True trivial
  refine ⟨s', ret', ?_⟩
  rw [sysOpen, hcur, Option.bind_some, show s.vfs.fsOpenFile pathname driver alloc = some (vfs, ret) from hopen,
    Option.bind_some]
  simp only [if_neg hret, hhd, Option.bind_some]
  exact hput

theorem named_eq_some {fd : Int16} {f : FileId} (h : s.named fd = some f) :
    ∃ cur, s.sched.current = some cur ∧ ¬ fd < 0 ∧ s.desc cur fd.toNatClampNeg = some (.file f) := by
  obtain ⟨cur, hcur, h⟩ := Option.bind_eq_some_iff.mp h
  split at h
  · cases h
  · next hneg =>
    split at h
    · next g hg =>
      obtain rfl := Option.some.inj h
      exact ⟨cur, hcur, hneg, hg⟩
    · cases h

/-- A number names no handle, if `task_get_desc` returns no descriptor of one. -/
theorem named_eq_none {fd : Int16} {usedAt : Bool} (hi : s.Inv) (hcur : s.sched.current = some cur)
    (hno : ∀ f, taskGetDesc (s.tables cur) fd usedAt ≠ some (.file f)) : s.named fd = none := by
  rw [named, hcur, Option.bind_some]
  split_ifs with hneg
  · rfl
  · split
    · next f hf =>
      obtain ⟨table, htable, hat⟩ := Option.bind_eq_some_iff.mp hf
      refine absurd ?_ (hno f)
      rw [htable]
      exact taskGetDesc_of_file hneg (hi.len cur table htable) hat
    · rfl

/-- `sys_close` takes back the descriptor of a handle, whatever the driver returned; without a handle it
changes nothing. -/
theorem sysClose_cases {fd err ret : Int16} {usedAt : Bool} (hi : s.Inv)
    (h : s.sysClose fd usedAt err = some (s', ret)) :
    (s' = s ∧ ret ≠ 0 ∧ s.named fd = none) ∨
      ∃ cur f, s.sched.current = some cur ∧ s.named fd = some f ∧ ret = 0 ∧ s'.closed = s.closed ∧
        Closed s s' fd.toNatClampNeg f cur err := by
  obtain ⟨cur, hcur, h⟩ := Option.bind_eq_some_iff.mp h
  dsimp only at h
  -- as `task_get_desc` does: a null pointer, a file, a directory, or a descriptor of another type
  split at h
  · next hnull =>
    obtain ⟨rfl, rfl⟩ := Prod.mk.inj (Option.some.inj h)
    exact .inl ⟨rfl, by decide, named_eq_none hi hcur fun f hf => by rw [hnull] at hf; cases hf⟩
  · next f hget =>
    obtain ⟨-, habs | ⟨table, htable, hneg, hat⟩⟩ := taskGetDesc_eq_some hget
    · cases habs
    · have hdesc : s.desc cur fd.toNatClampNeg = some (.file f) := by rw [desc, htable, Option.bind_some, hat]
      have hklt : fd.toNatClampNeg < table.length := (List.getElem?_eq_some_iff.mp hat).1
      have halloc : allocTable (s.tables cur) true (fun _ => false) = table := by rw [htable]; rfl
      obtain ⟨s₁, hclose, hs'⟩ := Option.map_eq_some_iff.mp h
      obtain ⟨rfl, rfl⟩ := Prod.mk.inj hs'
      obtain ⟨hsched, htables, hnext, hclosed, hlive⟩ := closeHandle_file hclose
      have hnew : ((s₁.tables cur).map (taskResetDesc · fd)) = some (table.set fd.toNatClampNeg .unset) := by
        rw [htables, htable]
        rfl
      have hfile : s.named fd = some f := by simp [named, hcur, hneg, hdesc]
      have hset := fun t k => @desc_set_iff s cur true (fun _ => false) fd.toNatClampNeg .unset (halloc ▸ hklt) t k
      rw [halloc] at hset
      refine .inr ⟨cur, f, hcur, hfile, rfl, hclosed, hdesc, hsched, ?_, ?_, ?_, hlive, hnext⟩
      · rw [hnew, htables]
        exact len_update hi.len (hi.len cur table htable)
      · intro t k g
        show (Function.update s₁.tables cur _ t).bind (·[k]?) = some (.file g) ↔ _
        rw [hnew, htables, hset t k (by simp) (by simp)]
        by_cases hat : t = cur ∧ k = fd.toNatClampNeg
        · simp [hat]
        · simp [hat, Holds]
      · intro t k g
        show (Function.update s₁.tables cur _ t).bind (·[k]?) ≠ some (.dir g)
        rw [hnew, htables, Ne, hset t k (by simp) (by simp)]
        split_ifs
        · simp
        · exact hi.noDir t k g
  · next f hget =>
    obtain ⟨-, habs | ⟨table, htable, -, hat⟩⟩ := taskGetDesc_eq_some hget
    · cases habs
    · exact absurd (by rw [desc, htable, Option.bind_some, hat]) (hi.noDir cur fd.toNatClampNeg f)
  · next d hfile _ hget =>
    obtain ⟨rfl, rfl⟩ := Prod.mk.inj (Option.some.inj h)
    have hno : ∀ f, taskGetDesc (s.tables cur) fd usedAt ≠ some (.file f) := by
      intro f hf
      rw [hget] at hf
      exact hfile f (Option.some.inj hf)
    exact .inl ⟨rfl, by decide, named_eq_none hi hcur hno⟩

/-- A store behind a table changes one slot. -/
theorem desc_overwrite (hi : s.Inv) {t u : TaskId} {k j : ℕ} {usedAt : Bool} (hk : k < maxFd) {d : Descriptor}
    (hunset : d ≠ .unset) (hother : d ≠ .other) :
    (s.overwrite t k usedAt).desc u j = some d ↔ s.desc u j = some d ∧ ¬ (u = t ∧ j = k) := by
  simp only [desc, overwrite]
  by_cases hu : u = t
  · subst hu
    rw [Function.update_self]
    cases htable : s.tables u with
    | none => simp
    | some table =>
      have hklt : k < table.length := by rw [hi.len u table htable]; exact hk
      rw [Option.map_some, Option.bind_some, Option.bind_some]
      by_cases hj : j = k
      · subst hj
        rw [List.getElem?_set_self hklt]
        split_ifs
        · simpa using hother.symm
        · simpa using hunset.symm
      · rw [List.getElem?_set_ne (Ne.symm hj)]
        simp [hj]
  · rw [Function.update_of_ne hu]
    simp [hu]

/-! ## The steps -/

/-- A step of the scheduler adds a zombie only at an exit. -/
theorem zombies_step {c c' : Parents} {op : WaitOp} (hi : c.Inv) (h : c.step op = some c') :
    c'.zombies = c.zombies ∨ ∃ status cur, op = .exit status ∧ c.Admits (.exit status) ∧
      c.current = some cur ∧ (c.tasks cur).pid ≠ 0 ∧ c'.zombies = c.zombies ++ [cur] := by
  have ha : c.Admits op := by
    by_contra ha
    simp [Parents.step, ha] at h
  obtain ⟨heffect, -⟩ := Parents.effect_step h
  cases heffect with
  | schedule hs => exact .inl (Sched.schedule_frame hs).2.1
  | queueNew _ hs => exact .inl (Sched.queueNew_frame hs).1
  | returned hs => exact .inl (congrArg Sched.zombies hs)
  | slept _ hcur _ _ hs => exact .inl (Sched.sleepOn_frame hcur hs).1
  | @exit status _ hexit =>
    obtain ⟨place, hplace⟩ := hi.assigned
    obtain ⟨cur, hcur⟩ := hplace.running
    have hcur : c.current = some cur := hcur
    by_cases hpid : (c.tasks cur).pid = 0
    · exact .inl (congrArg Sched.zombies (Parents.exit_main hcur hpid hexit))
    · exact .inr ⟨status, cur, rfl, ha, hcur, hpid, (Sched.exit_frame hcur hpid hexit).2.1⟩

namespace Inv

/-- A handle that is held by a descriptor is held by no other one. -/
theorem holder_unique (hi : s.Inv) (ho : s.Owned) {t u : TaskId} {fd k : ℕ} {f : FileId} (h : s.Holds t fd f)
    (h' : s.Holds u k f) : t = u ∧ fd = k := by
  obtain ⟨p, -, huniq⟩ := ho.held f (hi.live t fd f h)
  have halive : ∀ v j, s.Holds v j f → v ∉ s.sched.zombies := fun v j hv hz => hi.zombies v hz j f hv
  have heq := (huniq (t, fd) ⟨halive t fd h, h⟩).trans (huniq (u, k) ⟨halive u k h', h'⟩).symm
  exact Prod.mk.inj heq

/-- Every live handle is held. -/
theorem exists_holder (ho : s.Owned) {f : FileId} (hf : f ∈ s.live.map Prod.fst) :
    ∃ t fd, t ∉ s.sched.zombies ∧ s.Holds t fd f := by
  obtain ⟨p, ⟨halive, hp⟩, -⟩ := ho.held f hf
  exact ⟨p.1, p.2, halive, hp⟩

/-- The steps of the scheduler, an exit with a handle apart. -/
theorem step_sched {op : WaitOp} {c' : Parents} (hi : s.Inv) (ho : s.Owned) (hc : s.Clean (.sched op))
    (h : s.sched.step op = some c') :
    ({ s with sched := c' } : Files).Inv ∧ ({ s with sched := c' } : Files).Owned := by
  -- a task that becomes a zombie holds nothing
  have hz : ∀ t, t ∈ c'.zombies → t ∈ s.sched.zombies ∨ ∀ fd f, ¬ s.Holds t fd f := by
    intro t ht
    obtain heq | ⟨status, cur, rfl, ha, hcur, hpid, heq⟩ := zombies_step hi.sched h
    · exact .inl (heq ▸ ht)
    · rw [heq, List.mem_append, List.mem_singleton] at ht
      rcases ht with ht | rfl
      · exact .inl ht
      · exact .inr (hc ha t hcur hpid)
  have hmono : ∀ t, t ∈ s.sched.zombies → t ∈ c'.zombies := by
    intro t ht
    obtain heq | ⟨status, cur, -, -, -, -, heq⟩ := zombies_step hi.sched h
    · rwa [heq]
    · rw [heq]
      exact List.mem_append_left _ ht
  refine ⟨⟨(hi.sched.step h).1, hi.len, hi.noDir, hi.live, ?_, hi.fresh, hi.closedFresh⟩, ?_, ho.freed⟩
  · intro t ht fd f
    rcases hz t ht with hold | hnone
    · exact hi.zombies t hold fd f
    · exact hnone fd f
  · intro f hf
    obtain ⟨p, ⟨halive, hp⟩, huniq⟩ := ho.held f hf
    refine ⟨p, ⟨fun ht => ?_, hp⟩, fun q hq => huniq q ⟨fun ht => hq.1 (hmono q.1 ht), hq.2⟩⟩
    rcases hz p.1 ht with hold | hnone
    · exact halive hold
    · exact hnone p.2 f hp

/-- An open that fails leaves the tables and the handles as they were. -/
theorem step_failed (hi : s.Inv) (ho : s.Owned) (hsched : s'.sched = s.sched)
    (htables : s'.tables = s.tables) (hlive : s'.live = s.live) (hnext : s.next ≤ s'.next)
    (hclosed : s'.closed = s.closed) : s'.Inv ∧ s'.Owned := by
  have hdesc : ∀ t fd, s'.desc t fd = s.desc t fd := fun t fd => by rw [desc, desc, htables]
  refine ⟨⟨hsched ▸ hi.sched, htables ▸ hi.len, ?_, ?_, ?_, ?_, ?_⟩, ?_, ?_⟩
  · intro t fd f
    rw [hdesc]
    exact hi.noDir t fd f
  · intro t fd f hh
    rw [hlive]
    exact hi.live t fd f ((hdesc t fd).symm.trans hh)
  · intro t ht fd f hh
    exact hi.zombies t (hsched ▸ ht) fd f ((hdesc t fd).symm.trans hh)
  · rw [hlive]
    exact fun f hf => (hi.fresh f hf).trans_le hnext
  · rw [hclosed]
    exact fun f hf => (hi.closedFresh f hf).trans_le hnext
  · simp only [hlive, hsched, hdesc]
    exact ho.held
  · rw [hlive, hclosed]
    exact ho.freed

/-- A new handle has a new identity and one descriptor. -/
theorem step_open {cur : TaskId} {opens keeps : Prop} (hi : s.Inv) (ho : s.Owned)
    (hcur : s.sched.current = some cur) (hclean : opens → keeps) (h : Opened s s' cur opens keeps) :
    s'.Inv ∧ s'.Owned := by
  cases h with
  | failed _ hsched htables hlive hnext hclosed =>
    exact hi.step_failed ho hsched htables hlive hnext.ge hclosed
  | refused _ _ hsched htables hlive hnext hclosed =>
    exact hi.step_failed ho hsched htables hlive (hnext ▸ Nat.le_succ s.next) hclosed
  | leaked hopens hkeeps => exact absurd (hclean hopens) hkeeps
  | opened _ _ k hd hsched hlen hholds hnoDir hlive hnext hclosed =>
    have halive : cur ∉ s.sched.zombies := hi.sched.current_notMem hcur
    have hids : ∀ f, f ∈ s'.live.map Prod.fst ↔ f = s.next ∨ f ∈ s.live.map Prod.fst := by
      intro f
      rw [hlive, List.map_cons, List.mem_cons]
    refine ⟨⟨hsched ▸ hi.sched, hlen, hnoDir, ?_, ?_, ?_, ?_⟩, ?_, ?_⟩
    · intro t fd f hh
      rw [hids]
      rcases (hholds t fd f).mp hh with ⟨-, -, rfl⟩ | hh
      · exact .inl rfl
      · exact .inr (hi.live t fd f hh)
    · intro t ht fd f hh
      rw [hsched] at ht
      rcases (hholds t fd f).mp hh with ⟨rfl, -, -⟩ | hh
      · exact halive ht
      · exact hi.zombies t ht fd f hh
    · intro f hf
      rw [hnext]
      rcases (hids f).mp hf with rfl | hf
      · exact Nat.lt_succ_self _
      · exact (hi.fresh f hf).trans (Nat.lt_succ_self _)
    · intro f hf
      rw [hnext]
      exact (hi.closedFresh f (hclosed ▸ hf)).trans (Nat.lt_succ_self _)
    · intro f hf
      rw [hsched]
      rcases (hids f).mp hf with rfl | hf
      · -- no other descriptor holds the new identity
        refine ⟨(cur, k), ⟨halive, (hholds _ _ _).mpr (.inl ⟨rfl, rfl, rfl⟩)⟩, ?_⟩
        rintro ⟨t, fd⟩ ⟨-, hh⟩
        rcases (hholds t fd s.next).mp hh with ⟨rfl, rfl, -⟩ | hh
        · rfl
        · exact absurd (hi.fresh _ (hi.live t fd _ hh)) (lt_irrefl _)
      · obtain ⟨p, ⟨hpalive, hp⟩, huniq⟩ := ho.held f hf
        refine ⟨p, ⟨hpalive, (hholds _ _ _).mpr (.inr hp)⟩, ?_⟩
        rintro ⟨t, fd⟩ ⟨htalive, hh⟩
        rcases (hholds t fd f).mp hh with ⟨-, -, rfl⟩ | hh
        · exact absurd (hi.fresh _ hf) (lt_irrefl _)
        · exact huniq (t, fd) ⟨htalive, hh⟩
    · intro f hf hmem
      rw [hclosed] at hf
      rcases (hids f).mp hmem with rfl | hmem
      · exact absurd (hi.closedFresh _ hf) (lt_irrefl _)
      · exact ho.freed f hf hmem

/-- A close that the driver does not fail frees the handle with its descriptor. -/
theorem step_close {cur : TaskId} {fd : ℕ} {f : FileId} {err : Int16} (hi : s.Inv) (ho : s.Owned)
    (h : Closed s s' fd f cur err) (herr : ¬ err < 0) (hclosed : s'.closed = f :: s.closed) :
    s'.Inv ∧ s'.Owned := by
  have hlive : s'.live = s.live.filter (·.1 ≠ f) := by rw [h.live, if_neg herr]
  have hids : ∀ g, g ∈ s'.live.map Prod.fst ↔ g ∈ s.live.map Prod.fst ∧ g ≠ f := by
    intro g
    rw [hlive]
    simp only [List.mem_map, List.mem_filter, decide_eq_true_eq]
    constructor
    · rintro ⟨p, ⟨hp, hne⟩, rfl⟩
      exact ⟨⟨p, hp, rfl⟩, hne⟩
    · rintro ⟨⟨p, hp, rfl⟩, hne⟩
      exact ⟨p, ⟨hp, hne⟩, rfl⟩
  -- only the descriptor that was closed held the handle
  have hother : ∀ t k g, s'.Holds t k g → g ≠ f := by
    rintro t k g hh rfl
    obtain ⟨hh, hne⟩ := (h.holds_iff t k g).mp hh
    exact hne (holder_unique hi ho hh h.holds)
  refine ⟨⟨h.sched ▸ hi.sched, h.len, h.noDir, ?_, ?_, ?_, ?_⟩, ?_, ?_⟩
  · intro t k g hh
    exact (hids g).mpr ⟨hi.live t k g ((h.holds_iff t k g).mp hh).1, hother t k g hh⟩
  · intro t ht k g hh
    exact hi.zombies t (h.sched ▸ ht) k g ((h.holds_iff t k g).mp hh).1
  · intro g hg
    rw [h.next]
    exact hi.fresh g ((hids g).mp hg).1
  · intro g hg
    rw [hclosed, List.mem_cons] at hg
    rw [h.next]
    rcases hg with rfl | hg
    · exact hi.fresh _ (hi.live _ _ _ h.holds)
    · exact hi.closedFresh g hg
  · intro g hg
    obtain ⟨hg, hne⟩ := (hids g).mp hg
    obtain ⟨p, ⟨halive, hp⟩, huniq⟩ := ho.held g hg
    have hp' : ¬ (p.1 = cur ∧ p.2 = fd) := by
      rintro ⟨hc, hk⟩
      have hfd := h.holds
      rw [← hc, ← hk, Holds, hp] at hfd
      exact hne (by simpa using hfd)
    rw [h.sched]
    exact ⟨p, ⟨halive, (h.holds_iff _ _ _).mpr ⟨hp, hp'⟩⟩,
      fun q hq => huniq q ⟨hq.1, ((h.holds_iff _ _ _).mp hq.2).1⟩⟩
  · intro g hg hmem
    rw [hclosed, List.mem_cons] at hg
    obtain ⟨hmem, hne⟩ := (hids g).mp hmem
    rcases hg with rfl | hg
    · exact hne rfl
    · exact ho.freed g hg hmem

omit s s' in
/-- An exit that is admitted happens. -/
theorem exists_exit {c : Parents} {status : Int16} (hi : c.Inv) (ha : c.Admits (.exit status)) :
    ∃ c', c.step (.exit status) = some c' ∧ c.toSched.schedulerExit status = some c'.toSched := by
  obtain ⟨place, hplace⟩ := hi.assigned
  obtain ⟨c₁, -, hexec, -⟩ := @Threads.Assigned.exec_exit _ _ status hplace ha.2
  obtain ⟨sched, hs, -⟩ := Option.map_eq_some_iff.mp hexec
  have hs : c.toSched.schedulerExit status = some sched := hs
  exact ⟨{ c with toSched := sched }, by simp [Parents.step, ha, Reaping.exec, hs], hs⟩

/-- A close of a handle always returns 0. -/
theorem exists_sysClose {fd err : Int16} {usedAt : Bool} {f : FileId} (hi : s.Inv) (hnamed : s.named fd = some f) :
    ∃ s', s.sysClose fd usedAt err = some (s', 0) := by
  obtain ⟨cur, hcur, hneg, hdesc⟩ := named_eq_some hnamed
  obtain ⟨table, htable, hat⟩ := Option.bind_eq_some_iff.mp hdesc
  have hget : taskGetDesc (s.tables cur) fd usedAt = some (.file f) := by
    rw [htable]
    exact taskGetDesc_of_file hneg (hi.len cur table htable) hat
  obtain ⟨s₁, hclose⟩ := @exists_closeHandle s f err (hi.live cur _ f hdesc)
  unfold sysClose
  rw [hcur, Option.bind_some]
  simp only [hget, hclose, Option.map_some]
  exact ⟨_, rfl⟩

/-- A store behind the tables to no descriptor of a handle. -/
theorem step_overwrite {t : TaskId} {k : ℕ} {usedAt : Bool} (hi : s.Inv) (ho : s.Owned) (hk : k < maxFd)
    (hc : ∀ f, s.desc t k ≠ some (.file f)) : (s.overwrite t k usedAt).Inv ∧ (s.overwrite t k usedAt).Owned := by
  have hholds : ∀ u j f, (s.overwrite t k usedAt).Holds u j f ↔ s.Holds u j f := by
    intro u j f
    refine (desc_overwrite hi hk (by simp) (by simp)).trans ⟨And.left, fun hh => ⟨hh, ?_⟩⟩
    rintro ⟨rfl, rfl⟩
    exact hc f hh
  refine ⟨⟨hi.sched, ?_, ?_, ?_, ?_, hi.fresh, hi.closedFresh⟩, ?_, ho.freed⟩
  · intro u table hu
    simp only [overwrite] at hu
    by_cases hut : u = t
    · subst hut
      rw [Function.update_self] at hu
      obtain ⟨old, hold, rfl⟩ := Option.map_eq_some_iff.mp hu
      rw [List.length_set]
      exact hi.len u old hold
    · rw [Function.update_of_ne hut] at hu
      exact hi.len u table hu
  · intro u j f hdir
    exact hi.noDir u j f ((desc_overwrite hi hk (by simp) (by simp)).mp hdir).1
  · exact fun u j f hh => hi.live u j f ((hholds u j f).mp hh)
  · exact fun u hu j f hh => hi.zombies u hu j f ((hholds u j f).mp hh)
  · intro f hf
    obtain ⟨p, ⟨halive, hp⟩, huniq⟩ := ho.held f hf
    exact ⟨p, ⟨halive, (hholds p.1 p.2 f).mpr hp⟩, fun q hq => huniq q ⟨hq.1, (hholds q.1 q.2 f).mp hq.2⟩⟩

/-- **The steps that keep the ownership of handles.** -/
theorem step {op : FileOp} (hi : s.Inv) (ho : s.Owned) (hc : s.Clean op) (h : s.step op = some s') :
    s'.Inv ∧ s'.Owned := by
  cases op with
  | sched op =>
    obtain ⟨c', hc', rfl⟩ := Option.map_eq_some_iff.mp h
    exact step_sched hi ho hc hc'
  | sysOpen pathname driver alloc allocT used closeErr =>
    simp only [Files.step] at h
    split at h
    · next hcall =>
      obtain ⟨⟨s₁, ret⟩, hopen, rfl⟩ := Option.map_eq_some_iff.mp h
      obtain ⟨cur, hcur, -⟩ := Option.bind_eq_some_iff.mp hopen
      exact step_open hi ho hcur (fun hopens => hc hcall hopens cur hcur) (sysOpen_opened hi hcur hopen)
    · cases h
  | overwrite t k used =>
    simp only [Files.step] at h
    split_ifs at h with hk
    exact Option.some.inj h ▸ step_overwrite hi ho hk.2 (hc hk.1 hk.2)
  | sysClose fd used err =>
    simp only [Files.step] at h
    split at h
    · next hcall =>
      obtain ⟨⟨s₁, ret⟩, hclose, hs'⟩ := Option.map_eq_some_iff.mp h
      -- A close of no descriptor changes nothing; else the handle named is the one that was closed.
      obtain ⟨rfl, hret, -⟩ | ⟨cur, f, -, hnamed, rfl, hclosed, hspec⟩ := sysClose_cases hi hclose
      · dsimp only at hs'
        rw [if_neg hret] at hs'
        exact hs' ▸ ⟨hi, ho⟩
      · dsimp only at hs'
        rw [if_pos rfl, hnamed] at hs'
        subst hs'
        refine step_close hi ho ⟨hspec.holds, hspec.sched, hspec.len, hspec.holds_iff, hspec.noDir,
          hspec.live, hspec.next⟩ (hc hcall f hnamed) ?_
        show [f] ++ s₁.closed = f :: s.closed
        rw [hclosed, List.singleton_append]
    · cases h

/-- **The steps that lose it.** -/
theorem lost {op : FileOp} (hi : s.Inv) (ho : s.Owned) (hc : ¬ s.Clean op) :
    ∃ s', s.step op = some s' ∧ ¬ s'.Owned := by
  cases op with
  | sysOpen pathname driver alloc allocT used closeErr =>
    simp only [Clean, Classical.not_imp, not_forall] at hc
    obtain ⟨hcall, hopens, cur, hcur, hkeeps⟩ := hc
    obtain ⟨s₁, ret, hopen⟩ := @exists_sysOpen s cur alloc allocT used closeErr pathname driver hi hcur hopens
    refine ⟨s₁, by simp [Files.step, hcall, hopen], fun ho' => ?_⟩
    cases sysOpen_opened hi hcur hopen with
    | failed hno => exact hno hopens
    | opened _ hyes => exact hkeeps hyes
    | refused _ hyes => exact hkeeps hyes
    | leaked _ _ hd _ htables hlive =>
      -- the new handle has no descriptor
      obtain ⟨t, k, -, hh⟩ := exists_holder ho' (show s.next ∈ s₁.live.map Prod.fst by simp [hlive])
      have hold : s.Holds t k s.next := by
        rw [Holds, desc, htables] at hh
        exact hh
      exact absurd (hi.fresh _ (hi.live t k _ hold)) (lt_irrefl _)
  | overwrite t k used =>
    simp only [Clean, Classical.not_imp, not_forall, not_not] at hc
    obtain ⟨hlow, hk, f, hholds⟩ := hc
    refine ⟨s.overwrite t k used, if_pos ⟨hlow, hk⟩, fun ho' => ?_⟩
    -- the only descriptor of the handle is lost
    obtain ⟨u, j, -, hh⟩ := exists_holder ho' (show f ∈ (s.overwrite t k used).live.map Prod.fst from
      hi.live t k f hholds)
    obtain ⟨hold, hne⟩ := (desc_overwrite hi hk (by simp) (by simp)).mp hh
    exact hne (holder_unique hi ho hold hholds)
  | sysClose fd used err =>
    simp only [Clean, Classical.not_imp, not_forall, not_not] at hc
    obtain ⟨hcall, f, hnamed, herr⟩ := hc
    obtain ⟨s₁, hclose⟩ := @exists_sysClose s fd err used f hi hnamed
    obtain ⟨-, habs, -⟩ | ⟨cur, g, -, hg, -, -, hspec⟩ := sysClose_cases hi hclose
    · exact absurd rfl habs
    · obtain rfl : f = g := Option.some.inj (hnamed.symm.trans hg)
      refine ⟨{ s₁ with closed := [f] ++ s₁.closed }, ?_, ?_⟩
      · simp [Files.step, hcall, hclose, hnamed]
      · -- `sys_close` returned 0, and the handle is still there
        intro ho'
        refine ho'.freed f (List.mem_append_left _ List.mem_cons_self) ?_
        show f ∈ s₁.live.map Prod.fst
        rw [hspec.live, if_pos herr]
        exact hi.live _ _ _ hspec.holds
  | sched op =>
    cases op with
    | exit status =>
      simp only [Clean, Classical.not_imp, not_forall, not_not] at hc
      obtain ⟨ha, cur, hcur, hpid, fd, f, hholds⟩ := hc
      obtain ⟨c', hstep, hexit⟩ := exists_exit hi.sched ha
      refine ⟨{ s with sched := c' }, by simp [Files.step, hstep], ?_⟩
      have hz : cur ∈ c'.zombies := by
        rw [(Sched.exit_frame hcur hpid hexit).2.1]
        exact List.mem_append_right _ List.mem_cons_self
      intro ho'
      -- the task that holds the handle is a zombie now
      obtain ⟨t, k, halive, ht⟩ := exists_holder ho' (hi.live cur fd f hholds)
      obtain ⟨rfl, -⟩ := holder_unique hi ho (show s.Holds t k f from ht) hholds
      exact halive hz
    | _ => exact absurd trivial hc

end Inv

/-- At boot there are no handles. -/
theorem inv_boot {c : Parents} (hc : c.Inv) (vfs : Vfs) : (boot c vfs).Inv ∧ (boot c vfs).Owned := by
  refine ⟨⟨hc, ?_, ?_, ?_, ?_, ?_, ?_⟩, ?_, ?_⟩
  all_goals simp [boot, desc, Holds]

end Files

end I80k.Kernel

import I80k.Lib.Run
import I80k.Kernel.Fs.Vfs

/-!
# The references of mounts

A mount should live as long as it is mounted or has an open handle. Its count of references says so:
one for being mounted, and one for each open handle. `fs_unmount` takes away the first of these; but
the mount stays on the list while handles are open, where another `fs_unmount` finds it, and takes
away a reference that belongs to a handle.

## Main definitions

* `FsOp`, `Vfs.exec`: the operations, with the results of the callbacks; allocations succeed
* `Vfs.Counted`: the count of every mount is right, no open handle is on a freed mount, and none was
  freed twice
* `Vfs.Linked`: the list has the mounts that are not freed
* `Vfs.UnmountsOnce`: the operation does not unmount a mount that was unmounted before

## Main results

* `Vfs.Counted.putMount`: dropping a reference that is not counted any more
* `mount_refs_counted_iff`: in every run the counts are right exactly as long as no `fs_unmount` finds a
  mount that was unmounted before
-/

namespace I80k.Kernel

open StepSystem

/-- The operations on paths and handles. The paths come as the caller has them. -/
inductive FsOp
  | mount (path : List Char8) (fs : Option FsApi) (device : Option Bool) (mounted : Int16)
  | unmount (path : List Char8)
  | openFile (path : List Char8) (driver : Callback (Int16 × ℕ))
  | createFile (path : List Char8) (driver : Callback (Int16 × ℕ))
  | closeFile (h : Handle) (err : Int16)
  | openDir (path : List Char8) (driver : Callback (Int16 × ℕ))
  | closeDir (h : Handle) (err : Int16)
  | removeFile (path : List Char8) (driver : Callback Int16)
  | makeDir (path : List Char8) (driver : Callback Int16)
  | statFs (mountpoint : List Char8) (stat : Bool) (driver : Callback Int16)

namespace Vfs

/-- The operations that happen: what is closed is open. -/
def Admits (s : Vfs) : FsOp → Prop
  | .closeFile h _ => h ∈ s.handles ∧ h.kind = .file
  | .closeDir h _ => h ∈ s.handles ∧ h.kind = .dir
  | _ => True

instance (s : Vfs) : DecidablePred s.Admits
  | .closeFile _ _ => inferInstanceAs (Decidable (_ ∧ _))
  | .closeDir _ _ => inferInstanceAs (Decidable (_ ∧ _))
  | .mount _ _ _ _ => inferInstanceAs (Decidable True)
  | .unmount _ => inferInstanceAs (Decidable True)
  | .openFile _ _ => inferInstanceAs (Decidable True)
  | .createFile _ _ => inferInstanceAs (Decidable True)
  | .openDir _ _ => inferInstanceAs (Decidable True)
  | .removeFile _ _ => inferInstanceAs (Decidable True)
  | .makeDir _ _ => inferInstanceAs (Decidable True)
  | .statFs _ _ _ => inferInstanceAs (Decidable True)

/-- The operation takes effect. -/
def exec (s : Vfs) : FsOp → Option Vfs
  | .mount path fs device mounted => some (s.fsMount path fs device mounted true true).1
  | .unmount path => some (s.fsUnmount path).1
  | .openFile path driver => (s.fsOpenFile path driver true).map Prod.fst
  | .createFile path driver => some (s.fsCreateFile path driver true).1
  | .closeFile h err => some (s.fsCloseFile h err).1
  | .openDir path driver => some (s.fsOpenDir path driver true).1
  | .closeDir h err => some (s.fsCloseDir h err).1
  | .removeFile path driver => some (s.fsRemoveFile path driver).1
  | .makeDir path driver => some (s.fsMakeDir path driver).1
  | .statFs mountpoint stat driver => some (s.fsStatFs mountpoint stat driver).1

/-- One operation. -/
def step (s : Vfs) (op : FsOp) : Option Vfs :=
  if s.Admits op then s.exec op else none

/-- No mounts and no handles. -/
def init (store : MountId → FsMount) : Vfs := ⟨store, 0, [], [], []⟩

/-- How many open handles a mount has. -/
def handlesOf (s : Vfs) (m : MountId) : ℕ := s.handles.countP fun h => h.mount = m

/-- The references that a mount should have. -/
def owed (s : Vfs) (m : MountId) : ℤ :=
  (if (s.store m).unmounted then 0 else 1) + s.handlesOf m

/-- Every mount has the references it should have, the mounts of the open handles are not freed, and
no mount was freed twice. -/
structure Counted (s : Vfs) : Prop where
  ref : ∀ m < s.next, m ∉ s.freed → (s.store m).ref = s.owed m
  alive : ∀ h ∈ s.handles, h.mount ∉ s.freed
  once : s.freed.Nodup

/-- The list has the mounts that are not freed, and each of them has a reference. -/
structure Linked (s : Vfs) : Prop where
  mounts : ∀ m, m ∈ s.mounts ↔ m < s.next ∧ m ∉ s.freed
  nodup : s.mounts.Nodup
  handles : ∀ h ∈ s.handles, h.mount < s.next
  freed : ∀ m ∈ s.freed, m < s.next
  referenced : ∀ m ∈ s.mounts, (s.store m).ref ≠ 0

/-- The mounts on the list have references. -/
def Referenced (s : Vfs) : Prop := ∀ m ∈ s.mounts, (s.store m).ref ≠ 0

/-- The operation is not an `fs_unmount` that finds a mount unmounted before. -/
def UnmountsOnce (s : Vfs) : FsOp → Prop
  | .unmount path => ∀ m, s.lookup (tempPath path) = some m → (s.store m).unmounted = false
  | _ => True

/-! ## What an operation does -/

/-- The effects of an operation. -/
inductive Effect (s : Vfs) : Vfs → Prop
  | none : Effect s s
  | mounted (path : List Char8) (api : FsApi) :
    Effect s { s with
      store := Function.update s.store s.next ⟨path, 1, api, false⟩
      next := s.next + 1
      mounts := s.next :: s.mounts }
  | opened (h : Handle) (hm : h.mount ∈ s.mounts) : Effect s ((s.addRef h.mount).addHandle h)
  | closed (h : Handle) (hh : h ∈ s.handles) : Effect s (s.release h)

variable {s s' : Vfs} {m : MountId}

theorem mem_of_lookup {path : List Char8} (h : s.lookup path = some m) : m ∈ s.mounts := by
  rw [lookup] at h
  split_ifs at h
  exact List.mem_of_find?_eq_some h

/-- A call that takes a reference and drops it again. -/
theorem Referenced.putMount_addRef (h : Referenced s) {path : List Char8} (hm : s.lookup path = some m) :
    (s.addRef m).putMount m = s :=
  Vfs.putMount_addRef (h m (mem_of_lookup hm))

theorem Referenced.effect_passThrough (h : Referenced s) (path : List Char8) (has : FsApi → Bool)
    (driver : Callback Int16) : Effect s (s.passThrough path has driver).1 := by
  cases hm : s.lookup path with
  | none => simpa [passThrough, findMount, hm] using Effect.none
  | some m =>
    simp only [passThrough, findMount, hm, Option.map_some]
    split_ifs
    · rw [h.putMount_addRef hm]
      exact .none
    · rw [h.putMount_addRef hm]
      exact .none

theorem effect_close {h : Handle} (hh : h ∈ s.handles) (err : Int16) :
    Effect s (s.fsCloseFile h err).1 := by
  rw [fsCloseFile]
  split_ifs
  · exact .none
  · exact .closed h hh

theorem Referenced.effect_mount (h : Referenced s) (path : List Char8) (device : Option Bool) (api : FsApi)
    (mounted : Int16) : Effect s (s.mount path device api mounted true true).1 := by
  cases hm : s.lookup (tempPath path) with
  | none =>
    simp only [mount, findMount, hm, Option.map_none, not_true_eq_false, if_false]
    split_ifs
    · exact .none
    · exact .none
    · exact .none
    · exact .mounted _ api
  | some m =>
    simp only [mount, findMount, hm, Option.map_some, h.putMount_addRef hm]
    split_ifs
    · exact .none
    · exact .none

theorem Referenced.effect_openFile (h : Referenced s) (path : List Char8) (driver : Callback (Int16 × ℕ)) :
    ∃ r, s.fsOpenFile path driver true = some r ∧ Effect s r.1 := by
  cases hm : s.lookup (tempPath path) with
  | none =>
    refine ⟨(s, errNoEntry), ?_, .none⟩
    simp [fsOpenFile, findMount, hm]
  | some m =>
    simp only [fsOpenFile, findMount, hm, Option.map_some, h.putMount_addRef hm, not_true_eq_false,
      if_false]
    split_ifs
    · exact ⟨_, rfl, .none⟩
    · exact ⟨_, rfl, .opened ⟨.file, m, _⟩ (mem_of_lookup hm)⟩

theorem Referenced.effect_createFile (h : Referenced s) (path : List Char8) (driver : Callback (Int16 × ℕ)) :
    Effect s (s.fsCreateFile path driver true).1 := by
  cases hm : s.lookup (tempPath path) with
  | none => simpa [fsCreateFile, findMount, hm] using Effect.none
  | some m =>
    simp only [fsCreateFile, findMount, hm, Option.map_some, h.putMount_addRef hm, not_true_eq_false,
      if_false]
    split_ifs
    · exact .none
    · exact .opened ⟨.file, m, _⟩ (mem_of_lookup hm)
    · exact .none

theorem Referenced.effect_openDir (h : Referenced s) (path : List Char8) (driver : Callback (Int16 × ℕ)) :
    Effect s (s.fsOpenDir path driver true).1 := by
  cases hm : s.lookup (tempPath path) with
  | none => simpa [fsOpenDir, findMount, hm] using Effect.none
  | some m =>
    simp only [fsOpenDir, findMount, hm, Option.map_some, h.putMount_addRef hm, not_true_eq_false,
      if_false]
    split_ifs
    · exact .none
    · exact .opened ⟨.dir, m, _⟩ (mem_of_lookup hm)
    · exact .none

/-- Every operation but `fs_unmount` has one of the effects. -/
theorem Referenced.effect (h : Referenced s) {op : FsOp} (hop : ∀ path, op ≠ .unmount path)
    (hs : s.step op = some s') : Effect s s' := by
  rw [step] at hs
  split_ifs at hs with ha
  -- Each function opens, closes or mounts, or gives back the reference that it took.
  cases op with
  | unmount path => exact absurd rfl (hop path)
  | mount path fs device mounted =>
    obtain rfl := Option.some.inj hs
    cases fs with
    | none => exact .none
    | some api => exact h.effect_mount path device api mounted
  | openFile path driver =>
    obtain ⟨r, hr, he⟩ := h.effect_openFile path driver
    obtain rfl : r.1 = s' := by simpa [exec, hr] using hs
    exact he
  | createFile path driver =>
    obtain rfl := Option.some.inj hs
    exact h.effect_createFile path driver
  | closeFile hd err =>
    obtain rfl := Option.some.inj hs
    exact effect_close ha.1 err
  | openDir path driver =>
    obtain rfl := Option.some.inj hs
    exact h.effect_openDir path driver
  | closeDir hd err =>
    obtain rfl := Option.some.inj hs
    rw [fsCloseDir]
    split_ifs
    · exact .none
    · exact .closed hd ha.1
    · exact .none
  | removeFile path driver =>
    obtain rfl := Option.some.inj hs
    exact h.effect_passThrough _ _ _
  | makeDir path driver =>
    obtain rfl := Option.some.inj hs
    exact h.effect_passThrough _ _ _
  | statFs mountpoint stat driver =>
    obtain rfl := Option.some.inj hs
    rw [fsStatFs]
    split_ifs
    · exact h.effect_passThrough _ _ _
    · exact .none

/-! ## What the effects keep -/

/-- The references that the mounts should have depend on nothing else. -/
theorem owed_congr {t : Vfs} (hu : (s.store m).unmounted = (t.store m).unmounted)
    (hh : s.handles = t.handles) : s.owed m = t.owed m := by
  rw [owed, owed, handlesOf, handlesOf, hu, hh]

theorem owed_nonneg (s : Vfs) (m : MountId) : 0 ≤ s.owed m := by
  rw [owed]
  split_ifs
  · omega
  · omega

theorem owed_dropRef (m m' : MountId) : (s.dropRef m).owed m' = s.owed m' := by
  refine owed_congr ?_ rfl
  by_cases hm' : m' = m
  · simp [dropRef, modify, hm']
  · simp [dropRef, modify, hm']

theorem store_dropRef_of_ne {m' : MountId} (hne : m' ≠ m) : (s.dropRef m).store m' = s.store m' := by
  simp [dropRef, modify, hne]

/-- A mount that is owed nothing has no handles. -/
theorem mount_ne_of_owed (h₀ : s.owed m = 0) : ∀ h ∈ s.handles, h.mount ≠ m := by
  have hcount : s.handlesOf m = 0 := by
    rw [owed] at h₀
    split_ifs at h₀
    · omega
    · omega
  simpa [handlesOf, List.countP_eq_zero] using hcount

/-- Dropping a reference to `m` that is not owed any more. The mount goes away when nothing is owed to
it at all. -/
theorem Linked.putMount (hl : Linked s) (hm : m ∈ s.mounts) (href : (s.store m).ref = s.owed m + 1)
    (hothers : ∀ m' < s.next, m' ∉ s.freed → m' ≠ m → (s.store m').ref = s.owed m')
    (halive : ∀ h ∈ s.handles, h.mount ∉ s.freed) (honce : s.freed.Nodup) :
    Linked (s.putMount m) ∧ Counted (s.putMount m) := by
  have hdrop : ((s.dropRef m).store m).ref = s.owed m := by
    simp [dropRef, modify, href]
  obtain ⟨hlt, hnf⟩ := (hl.mounts m).mp hm
  rw [Vfs.putMount]
  by_cases h₀ : s.owed m = 0
  · -- The last reference: the mount leaves the table, and no handle is one of it.
    rw [if_pos (hdrop.trans h₀)]
    have hnone := mount_ne_of_owed h₀
    refine ⟨⟨fun m' => ?_, ?_, hl.handles, ?_, fun m' hm' => ?_⟩, fun m' hlt' hnf' => ?_,
      fun h hh => ?_, ?_⟩
    · simp only [hl.nodup.mem_erase_iff, hl.mounts, List.mem_cons, dropRef, modify]
      tauto
    · exact hl.nodup.erase m
    · simpa [dropRef, modify, hlt] using hl.freed
    · have hm'' : m' ≠ m ∧ m' ∈ s.mounts := hl.nodup.mem_erase_iff.mp hm'
      simpa [store_dropRef_of_ne hm''.1] using hl.referenced m' hm''.2
    · have hne : m' ≠ m ∧ m' ∉ s.freed := by simpa [dropRef, modify] using hnf'
      show ((s.dropRef m).store m').ref = (s.dropRef m).owed m'
      rw [owed_dropRef, store_dropRef_of_ne hne.1]
      exact hothers m' hlt' hne.2 hne.1
    · simpa [dropRef, modify] using ⟨hnone h hh, halive h hh⟩
    · exact List.nodup_cons.mpr ⟨hnf, honce⟩
  · -- References are left, and the table is as before.
    rw [if_neg (by rwa [hdrop])]
    refine ⟨⟨hl.mounts, hl.nodup, hl.handles, hl.freed, fun m' hm' => ?_⟩, fun m' hlt' hnf' => ?_,
      halive, honce⟩
    · by_cases hne : m' = m
      · subst hne
        rwa [hdrop]
      · rw [store_dropRef_of_ne hne]
        exact hl.referenced m' hm'
    · by_cases hne : m' = m
      · subst hne
        rw [hdrop, owed_dropRef]
      · rw [owed_dropRef, store_dropRef_of_ne hne]
        exact hothers m' hlt' hnf' hne

theorem release_eq (h : Handle) :
    s.release h = ({ s with handles := s.handles.erase h } : Vfs).putMount h.mount := by
  by_cases h₀ : ((s.dropRef h.mount).store h.mount).ref = 0
  · have h₁ : ((({ s with handles := s.handles.erase h } : Vfs).dropRef h.mount).store h.mount).ref = 0 :=
      h₀
    rw [release, Vfs.putMount, Vfs.putMount, if_pos h₀, if_pos h₁]
    rfl
  · have h₁ : ((({ s with handles := s.handles.erase h } : Vfs).dropRef h.mount).store h.mount).ref ≠ 0 :=
      h₀
    rw [release, Vfs.putMount, Vfs.putMount, if_neg h₀, if_neg h₁]
    rfl

/-- Closing a handle takes it from the count of its mount. -/
theorem handlesOf_erase {h : Handle} (hh : h ∈ s.handles) (m : MountId) :
    s.handlesOf m = ({ s with handles := s.handles.erase h } : Vfs).handlesOf m +
      if h.mount = m then 1 else 0 := by
  rw [handlesOf, (List.perm_cons_erase hh).countP_eq, List.countP_cons]
  simp [handlesOf]

/-- A new mount has the reference of the table, and no handle yet. -/
theorem Counted.mounted (hl : Linked s) (hc : Counted s) (path : List Char8) (api : FsApi) :
    Linked { s with
        store := Function.update s.store s.next ⟨path, 1, api, false⟩
        next := s.next + 1
        mounts := s.next :: s.mounts } ∧
      Counted { s with
        store := Function.update s.store s.next ⟨path, 1, api, false⟩
        next := s.next + 1
        mounts := s.next :: s.mounts } := by
  have hnew : s.next ∉ s.freed := fun hf => lt_irrefl _ (hl.freed _ hf)
  have hnone : s.handlesOf s.next = 0 := by
    simpa [handlesOf, List.countP_eq_zero] using fun h hh => (hl.handles h hh).ne
  refine ⟨⟨fun m => ?_, ?_, fun h hh => ?_, fun m hm => ?_, fun m hm => ?_⟩, fun m hlt hnf => ?_,
    hc.alive, hc.once⟩
  · simp only [List.mem_cons, hl.mounts]
    constructor
    · rintro (rfl | ⟨hlt, hnf⟩)
      · exact ⟨Nat.lt_succ_self _, hnew⟩
      · exact ⟨Nat.lt_succ_of_lt hlt, hnf⟩
    · rintro ⟨hlt, hnf⟩
      rcases Nat.lt_succ_iff_lt_or_eq.mp hlt with hlt | rfl
      · exact Or.inr ⟨hlt, hnf⟩
      · exact Or.inl rfl
  · refine List.nodup_cons.mpr ⟨fun hm => ?_, hl.nodup⟩
    exact lt_irrefl _ ((hl.mounts _).mp hm).1
  · exact Nat.lt_succ_of_lt (hl.handles h hh)
  · exact Nat.lt_succ_of_lt (hl.freed m hm)
  · by_cases hne : m = s.next
    · simp [hne]
    · simpa [hne] using hl.referenced m ((List.mem_cons.mp hm).resolve_left hne)
  · -- The new mount is owed the reference of the table; the others are owed what they were.
    by_cases hne : m = s.next
    · have : ({ s with
          store := Function.update s.store s.next ⟨path, 1, api, false⟩
          next := s.next + 1
          mounts := s.next :: s.mounts } : Vfs).handlesOf s.next = 0 := hnone
      simp [hne, owed, this]
    · have hlt' : m < s.next := (Nat.lt_succ_iff_lt_or_eq.mp hlt).resolve_right hne
      have hu : Function.update s.store s.next ⟨path, 1, api, false⟩ m = s.store m := by simp [hne]
      simp only [hu]
      rw [hc.ref m hlt' hnf]
      exact owed_congr (by simp [hne]) rfl

/-- An open takes one more reference, for one more handle. -/
theorem Counted.opened (hl : Linked s) (hc : Counted s) {h : Handle} (hm : h.mount ∈ s.mounts) :
    Linked ((s.addRef h.mount).addHandle h) ∧ Counted ((s.addRef h.mount).addHandle h) := by
  refine ⟨⟨hl.mounts, hl.nodup, fun h' hh' => ?_, hl.freed, fun m' hm' => ?_⟩, fun m' hlt hnf => ?_,
    fun h' hh' => ?_, hc.once⟩
  · rcases List.mem_cons.mp hh' with rfl | hh'
    · exact ((hl.mounts _).mp hm).1
    · exact hl.handles h' hh'
  · by_cases hne : m' = h.mount
    · have href := hc.ref m' ((hl.mounts m').mp hm').1 ((hl.mounts m').mp hm').2
      have hle := s.owed_nonneg m'
      subst hne
      simp only [addHandle, addRef, modify, Function.update_self]
      omega
    · simpa [addHandle, addRef, modify, hne] using hl.referenced m' hm'
  · -- One more handle, one more reference.
    have href := hc.ref m' hlt hnf
    by_cases hne : m' = h.mount
    · subst hne
      simp only [addHandle, addRef, modify, Function.update_self, owed, handlesOf, List.countP_cons,
        decide_true, if_true] at href ⊢
      push_cast
      omega
    · simpa [addHandle, addRef, modify, owed, handlesOf, List.countP_cons, hne, Ne.symm hne] using href
  · rcases List.mem_cons.mp hh' with rfl | hh'
    · exact ((hl.mounts _).mp hm).2
    · exact hc.alive h' hh'

/-- A close drops the reference of its handle. -/
theorem Counted.closed (hl : Linked s) (hc : Counted s) {h : Handle} (hh : h ∈ s.handles) :
    Linked (s.release h) ∧ Counted (s.release h) := by
  have hlt := hl.handles h hh
  have hnf := hc.alive h hh
  have howed : ∀ m', s.owed m' = ({ s with handles := s.handles.erase h } : Vfs).owed m' +
      if h.mount = m' then 1 else 0 := by
    intro m'
    rw [owed, owed, handlesOf_erase hh]
    push_cast
    ring
  -- The handle is gone when the reference is dropped: one more than what is owed.
  rw [release_eq]
  refine Linked.putMount ⟨hl.mounts, hl.nodup, fun h' hh' => hl.handles h' (List.mem_of_mem_erase hh'),
    hl.freed, hl.referenced⟩ ((hl.mounts _).mpr ⟨hlt, hnf⟩) ?_ (fun m' hlt' hnf' hne => ?_)
    (fun h' hh' => hc.alive h' (List.mem_of_mem_erase hh')) hc.once
  · simpa [howed] using hc.ref h.mount hlt hnf
  · simpa [howed, hne.symm] using hc.ref m' hlt' hnf'

/-- Mounting, opening and closing keep the counts right. -/
theorem Counted.effect (hl : Linked s) (hc : Counted s) (he : Effect s s') :
    Linked s' ∧ Counted s' := by
  cases he with
  | none => exact ⟨hl, hc⟩
  | mounted path api => exact Counted.mounted hl hc path api
  | opened h hm => exact Counted.opened hl hc hm
  | closed h hh => exact Counted.closed hl hc hh

/-! ## Unmounting -/

/-- What `fs_unmount` does to the mount it finds: it is marked, and loses one reference. -/
theorem Referenced.fsUnmount_eq (h : Referenced s) {path : List Char8}
    (hm : s.lookup (tempPath path) = some m) :
    (s.fsUnmount path).1 =
      (s.modify m fun mount => { mount with unmounted := true }).putMount m := by
  have href := h m (mem_of_lookup hm)
  have hswap : (s.addRef m).modify m (fun mount => { mount with unmounted := true }) =
      (s.modify m fun mount => { mount with unmounted := true }).addRef m := by
    simp [addRef, modify]
  have hput := Vfs.putMount_addRef (s := s.modify m fun mount => { mount with unmounted := true })
    (m := m) (by simpa [modify] using href)
  simp only [fsUnmount, findMount, hm, Option.map_some]
  rw [hswap, hput]

/-- The first `fs_unmount` of a mount drops the reference for being mounted. -/
theorem Counted.unmount (hl : Linked s) (hc : Counted s) {path : List Char8}
    (hm : s.lookup (tempPath path) = some m) (hu : (s.store m).unmounted = false) :
    Linked (s.fsUnmount path).1 ∧ Counted (s.fsUnmount path).1 := by
  have hmem := mem_of_lookup hm
  obtain ⟨hlt, hnf⟩ := (hl.mounts m).mp hmem
  have hstore : ∀ m' ≠ m, ((s.modify m fun mount => { mount with unmounted := true }).store m') =
      s.store m' := by
    intro m' hne
    simp [modify, hne]
  -- The lookup takes a reference and drops it; the one that is left to drop is that of the table.
  rw [Referenced.fsUnmount_eq hl.referenced hm]
  refine Linked.putMount ⟨hl.mounts, hl.nodup, hl.handles, hl.freed, fun m' hm' => ?_⟩ hmem ?_
    (fun m' hlt' hnf' hne => ?_) hc.alive hc.once
  · by_cases hne : m' = m
    · simpa [modify, hne] using hl.referenced m hmem
    · simpa [hstore m' hne] using hl.referenced m' hm'
  · have href := hc.ref m hlt hnf
    simp only [owed, hu, handlesOf] at href
    simp [modify, owed, handlesOf, href]
    ring
  · rw [hstore m' hne, hc.ref m' hlt' hnf']
    exact owed_congr (by rw [hstore m' hne]) rfl

/-- Another `fs_unmount` drops a reference that an open handle owns. -/
theorem Counted.unmount_again (hl : Linked s) (hc : Counted s) {path : List Char8}
    (hm : s.lookup (tempPath path) = some m) (hu : (s.store m).unmounted = true) :
    ¬ Counted (s.fsUnmount path).1 := by
  have hmem := mem_of_lookup hm
  obtain ⟨hlt, hnf⟩ := (hl.mounts m).mp hmem
  have href := hc.ref m hlt hnf
  have hpos := hl.referenced m hmem
  have hmark : (s.modify m fun mount => { mount with unmounted := true }) = s := by
    simp [modify, ← hu]
  have howed : s.owed m = s.handlesOf m := by simp [owed, hu]
  have hdrop : ((s.dropRef m).store m).ref = s.owed m - 1 := by
    simp [dropRef, modify, href]
  rw [Referenced.fsUnmount_eq hl.referenced hm, hmark, Vfs.putMount]
  intro h
  by_cases h₀ : s.owed m - 1 = 0
  · -- The last handle keeps a pointer to the mount that was freed.
    rw [if_pos (hdrop.trans h₀)] at h
    obtain ⟨hd, hh, hdm⟩ : ∃ hd ∈ s.handles, hd.mount = m := by
      have hcount : 0 < s.handlesOf m := by omega
      simpa [handlesOf, List.countP_pos_iff] using hcount
    exact h.alive hd hh (by simp [hdm])
  · rw [if_neg (by rwa [hdrop])] at h
    have h' : ((s.dropRef m).store m).ref = (s.dropRef m).owed m := h.ref m hlt hnf
    have howed' : (s.dropRef m).owed m = s.owed m := owed_congr (by simp [dropRef, modify]) rfl
    omega

/-- A step that meets the condition keeps the counts right. -/
theorem Counted.step (hl : Linked s) (hc : Counted s) {op : FsOp} (ho : s.UnmountsOnce op)
    (hs : s.step op = some s') : Linked s' ∧ Counted s' := by
  by_cases hop : ∃ path, op = .unmount path
  · obtain ⟨path, rfl⟩ := hop
    obtain rfl : (s.fsUnmount path).1 = s' := by simpa [Vfs.step, Admits, exec] using hs
    cases hm : s.lookup (tempPath path) with
    | none => simpa [fsUnmount, findMount, hm] using ⟨hl, hc⟩
    | some m => exact hc.unmount hl hm (ho m hm)
  · exact hc.effect hl (Referenced.effect hl.referenced (not_exists.mp hop) hs)

end Vfs

/-- **The references of mounts, exactly.** In every run of the operations, from no mounts and with any
results of the callbacks: every mount has one reference while it is mounted and one for each open
handle, no mount of an open handle is freed, and no mount is freed twice, if and only if no
`fs_unmount` of the run finds a mount that an earlier one had found. -/
theorem mount_refs_counted_iff (store : MountId → FsMount) (ops : List FsOp) :
    Always Vfs.step Vfs.Counted (Vfs.init store) ops ↔
      Steps Vfs.step Vfs.UnmountsOnce (Vfs.init store) ops := by
  refine always_iff_steps (I := Vfs.Linked) (fun s op s' hl hc ho hs => hc.step hl ho hs)
    (fun s op hl hc ho => ?_) ?_ ?_
  · cases op with
    | unmount path =>
      obtain ⟨m, hm, hu⟩ : ∃ m, s.lookup (tempPath path) = some m ∧ (s.store m).unmounted = true := by
        simpa [Vfs.UnmountsOnce] using ho
      exact ⟨_, by simp [Vfs.step, Vfs.Admits, Vfs.exec], hc.unmount_again hl hm hu⟩
    | _ => exact absurd trivial ho
  · constructor <;> simp [Vfs.init]
  · constructor <;> simp [Vfs.init]

/-- The paths `/a` and `/a/f`: the mount is freed with the file still open. -/
theorem not_always_counted_unmount_twice :
    ¬ Always Vfs.step Vfs.Counted
      (Vfs.init fun _ => ⟨[], 0, ⟨false, false, false, false, false, false⟩, false⟩)
      [.mount [47, 97] (some ⟨false, false, false, false, false, false⟩) none 0,
        .openFile [47, 97, 47, 102] (fun _ _ => (0, 7)), .unmount [47, 97], .unmount [47, 97]] := by
  intro h
  have hrun : (run Vfs.step
      (Vfs.init fun _ => ⟨[], 0, ⟨false, false, false, false, false, false⟩, false⟩)
      [.mount [47, 97] (some ⟨false, false, false, false, false, false⟩) none 0,
        .openFile [47, 97, 47, 102] (fun _ _ => (0, 7)), .unmount [47, 97], .unmount [47, 97]]).map
      (fun s => (s.freed, s.handles)) = some ([0], [⟨.file, 0, 7⟩]) := by
    decide
  obtain ⟨s, hs, he⟩ := Option.map_eq_some_iff.mp hrun
  obtain ⟨hfreed, hhandles⟩ := Prod.mk.inj he
  have halive := (h.last hs).alive ⟨.file, 0, 7⟩ (by simp [hhandles])
  simp [hfreed] at halive

end I80k.Kernel

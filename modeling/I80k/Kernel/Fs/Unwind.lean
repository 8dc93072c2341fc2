import I80k.Kernel.Fs.Dispatch

/-!
# Calls that fail

A call that takes a reference to a mount, has a file system make an instance or hand out a cookie, and then
allocates memory, has to give all of it back when it fails. The functions of `fs.c` give back the reference.
What they got from the file system they keep: `fs_mount` does not pass the instance to `api->unmount` when
there is no memory for the mount, and the three opens do not close the cookie when there is none for the
handle. `fs_open_file` does not look at the result of `malloc` at all, and `fs_create_file` returns the result
of the callback there, which is no error.

## Main definitions

* `Dispatch.FailsClean`: a mount that fails leaves the table and the instances as they were
* `Dispatch.AllOrNothing`: an open stores a handle, or leaves the table and the cookies as they were
* `Dispatch.CallbackSucceeds`: the callback of an open is called, and hands out a cookie

## Main results

* `fs_mount_fails_clean_iff`: a mount that fails is undone unless memory runs out after `api->mount`
* `fs_open_all_or_nothing_iff`: so is an open, unless memory runs out after its callback
-/

namespace I80k.Kernel

namespace Dispatch

/-- A mount that returns an error has changed no mount and no count of references, and has left no instance
mounted. -/
def FailsClean (d : Dispatch) (r : Dispatch × Int16) : Prop :=
  r.2 < 0 → r.1.vfs = d.vfs ∧ r.1.instances = d.instances

/-- An open returns 0 with a handle that has the cookie of the callback, and one more reference to its mount;
or it returns an error, and has changed no reference and left no cookie open. -/
def AllOrNothing (d : Dispatch) (kind : HandleKind) (driver : Callback (Int16 × ℕ)) (r : Opening) : Prop :=
  (∃ m newpath, r.1.asked = (m, newpath) :: d.asked ∧
    r.2 = some (0, some ⟨kind, m, (driver m newpath).2⟩) ∧
    ∀ m', (r.1.vfs.store m').ref = (d.vfs.store m').ref + if m' = m then 1 else 0) ∨
  (∃ err < 0, r.2 = some (err, none)) ∧ r.1.vfs = d.vfs ∧ r.1.opened = d.opened

/-- A mount is found that has the callback, and the callback returns no error. -/
def CallbackSucceeds (d : Dispatch) (has : FsApi → Bool) (path : List Char8) (driver : Callback (Int16 × ℕ)) :
    Prop :=
  ∃ m, d.vfs.lookup (tempPath path) = some m ∧ has (d.vfs.store m).api ∧
    0 ≤ (driver m (trimmedPath (tempPath path) (d.vfs.store m).path)).1

variable {d : Dispatch} {path : List Char8} {m : MountId} {alloc : Bool}

/-! ## Mounts -/

section Mount

variable {device : Option Bool} {api : FsApi} {mounted : Int16 × ℕ} {allocPath : Bool}

/-- A mount that is refused before `api->mount` has made an instance. -/
theorem mount_refused (hr : d.vfs.Referenced) (h : ¬ d.vfs.Accepted path device mounted.1) :
    (d.mount path device api mounted alloc allocPath).1 = d := by
  -- The tests in the order of the function: the path, what is mounted there, the device, the file system.
  by_cases habs : (tempPath path).head? = some slash
  · cases hm : d.vfs.lookup (tempPath path) with
    | none =>
      have hnone := (Vfs.lookup_eq_none_iff habs).mp hm
      simp only [mount, findMount_none hm, habs]
      by_cases hdev : device = some false
      · simp [hdev]
      · have hres : mounted.1 < 0 := by
          by_contra hres
          exact h ⟨hdev, hres, habs, hnone⟩
        simp [hdev, hres]
    | some m => simp [mount, findMount_some hm, habs, putMount_found hr hm]
  · simp [mount, habs]

/-- A mount that is accepted: without memory its instance is kept. -/
theorem mount_accepted (h : d.vfs.Accepted path device mounted.1) (halloc : ¬ (alloc ∧ allocPath)) :
    d.mount path device api mounted alloc allocPath =
      ({ d with instances := mounted.2 :: d.instances }, errNoMem) := by
  obtain ⟨hdev, hres, habs, hnone⟩ := h
  have hm := (Vfs.lookup_eq_none_iff habs).mpr hnone
  simp only [mount, findMount_none hm, habs, hdev, hres, ne_eq, not_true_eq_false, if_false]
  split_ifs with h₁ h₂
  · exact absurd ⟨h₁, h₂⟩ halloc
  · rfl
  · rfl

/-- With memory it succeeds. -/
theorem mount_succeeds (h : d.vfs.Accepted path device mounted.1) :
    (d.mount path device api mounted true true).2 = 0 := by
  obtain ⟨hdev, hres, habs, hnone⟩ := h
  have hm := (Vfs.lookup_eq_none_iff habs).mpr hnone
  simp [mount, findMount_none hm, habs, hdev, hres]

end Mount

/-! ## Opens -/

variable {kind : HandleKind} {driver : Callback (Int16 × ℕ)} {newpath : List Char8}

theorem AllOrNothing.refused {d' : Dispatch} {err : Int16} (herr : err < 0) (hvfs : d'.vfs = d.vfs)
    (hopened : d'.opened = d.opened) : d.AllOrNothing kind driver (d', some (err, none)) :=
  Or.inr ⟨⟨err, herr, rfl⟩, hvfs, hopened⟩

/-- The end of an open that succeeds. -/
theorem AllOrNothing.opened :
    d.AllOrNothing kind driver
      ((((d.addRef m).ask m newpath).receive kind (driver m newpath).2).addHandle
        ⟨kind, m, (driver m newpath).2⟩, some (0, some ⟨kind, m, (driver m newpath).2⟩)) := by
  refine Or.inl ⟨m, newpath, rfl, rfl, fun m' => ?_⟩
  by_cases hne : m' = m
  · subst hne
    simp [addRef, ask, receive, addHandle, Vfs.addHandle, Vfs.addRef, Vfs.modify]
  · simp [addRef, ask, receive, addHandle, Vfs.addHandle, Vfs.addRef, Vfs.modify, hne]

/-- A cookie that is kept without a handle. -/
theorem not_allOrNothing_of_kept {r : Opening} {result : Option Int16} {cookie : ℕ}
    (hresult : r.2 = result.map fun err => (err, none)) (hopened : r.1.opened = (kind, cookie) :: d.opened) :
    ¬ d.AllOrNothing kind driver r := by
  rintro (⟨m, newpath, -, hstored, -⟩ | ⟨-, -, hsame⟩)
  · simp [hresult] at hstored
  · rw [hopened] at hsame
    exact absurd hsame (List.cons_ne_self _ _)

/-- The part of the three opens that is the same: they differ in what they do with the cookie without memory,
and all of them keep it. -/
theorem afterCallback_iff (hr : d.vfs.Referenced) (hm : d.vfs.lookup path = some m)
    {kept : Dispatch → Opening}
    (hkept : ∀ d', ∃ result : Option Int16, (kept d').2 = result.map (fun err => (err, none)) ∧
      (kept d').1.opened = d'.opened) :
    d.AllOrNothing kind driver (d.afterCallback kind m newpath (driver m newpath) alloc kept) ↔
      (0 ≤ (driver m newpath).1 → alloc) := by
  rw [afterCallback]
  by_cases herr : (driver m newpath).1 < 0
  · have hput : ((d.addRef m).ask m newpath).putMount m = d.ask m newpath :=
      putMount_found (d := d.ask m newpath) hr hm
    rw [if_pos herr, hput]
    exact iff_of_true (.refused herr rfl rfl) fun hle => absurd herr (Int16.not_lt.mpr hle)
  · have hle : 0 ≤ (driver m newpath).1 := Int16.not_lt.mp herr
    rw [if_neg herr]
    cases alloc with
    | false =>
      obtain ⟨result, hresult, hopened⟩ :=
        hkept (((d.addRef m).ask m newpath).receive kind (driver m newpath).2)
      rw [if_pos (by simp)]
      exact iff_of_false (not_allOrNothing_of_kept hresult hopened) fun h => absurd (h hle) (by simp)
    | true =>
      rw [if_neg (by simp)]
      exact iff_of_true .opened fun _ => rfl

theorem callbackSucceeds_iff {has : FsApi → Bool} (hm : d.vfs.lookup (tempPath path) = some m) :
    d.CallbackSucceeds has path driver ↔ has (d.vfs.store m).api ∧
      0 ≤ (driver m (trimmedPath (tempPath path) (d.vfs.store m).path)).1 := by
  simp [CallbackSucceeds, hm]

theorem not_callbackSucceeds {has : FsApi → Bool} (hm : d.vfs.lookup (tempPath path) = none) :
    ¬ d.CallbackSucceeds has path driver := by
  simp [CallbackSucceeds, hm]

theorem fsOpenFile_iff (hr : d.vfs.Referenced) :
    d.AllOrNothing .file driver (d.fsOpenFile path driver alloc) ↔
      (d.CallbackSucceeds (fun _ => true) path driver → alloc) := by
  cases hm : d.vfs.lookup (tempPath path) with
  | none =>
    rw [fsOpenFile_none hm]
    exact iff_of_true (.refused (by decide) rfl rfl) fun h => absurd h (not_callbackSucceeds hm)
  | some m =>
    rw [fsOpenFile_some hm, callbackSucceeds_iff hm, afterCallback_iff hr hm fun _ => ⟨none, rfl, rfl⟩]
    exact ⟨fun h hc => h hc.2, fun h hle => h ⟨rfl, hle⟩⟩

theorem fsCreateFile_iff (hr : d.vfs.Referenced) :
    d.AllOrNothing .file driver (d.fsCreateFile path driver alloc) ↔
      (d.CallbackSucceeds FsApi.create path driver → alloc) := by
  cases hm : d.vfs.lookup (tempPath path) with
  | none =>
    rw [fsCreateFile_none hm]
    exact iff_of_true (.refused (by decide) rfl rfl) fun h => absurd h (not_callbackSucceeds hm)
  | some m =>
    rw [fsCreateFile_some hm, callbackSucceeds_iff hm]
    by_cases hhas : (d.vfs.store m).api.create = true
    · rw [if_neg (not_not.mpr hhas), afterCallback_iff hr hm fun _ => ⟨some _, rfl, rfl⟩]
      exact ⟨fun h hc => h hc.2, fun h hle => h ⟨hhas, hle⟩⟩
    · rw [if_pos hhas, putMount_found hr hm]
      exact iff_of_true (.refused (by decide) rfl rfl) fun h => absurd h.1 hhas

theorem fsOpenDir_iff (hr : d.vfs.Referenced) :
    d.AllOrNothing .dir driver (d.fsOpenDir path driver alloc) ↔
      (d.CallbackSucceeds FsApi.opendir path driver → alloc) := by
  cases hm : d.vfs.lookup (tempPath path) with
  | none =>
    rw [fsOpenDir_none hm]
    exact iff_of_true (.refused (by decide) rfl rfl) fun h => absurd h (not_callbackSucceeds hm)
  | some m =>
    rw [fsOpenDir_some hm, callbackSucceeds_iff hm]
    by_cases hhas : (d.vfs.store m).api.opendir = true
    · rw [if_neg (not_not.mpr hhas), afterCallback_iff hr hm fun _ => ⟨some _, rfl, rfl⟩]
      exact ⟨fun h hc => h hc.2, fun h hle => h ⟨hhas, hle⟩⟩
    · rw [if_pos hhas, putMount_found hr hm]
      exact iff_of_true (.refused (by decide) rfl rfl) fun h => absurd h.1 hhas

end Dispatch

open Dispatch

/-- **Mounts that fail, exactly.** For every mount table that is reached, every path, file system and device,
every result of `api->mount` and every outcome of the two allocations: if `fs_mount` returns an error, the
mounts and their references are as before and no instance is left mounted, if and only if the allocations
succeed whenever `api->mount` has. -/
theorem fs_mount_fails_clean_iff (d : Dispatch) (hd : d.vfs.Reachable) (path : List Char8) (fs : Option FsApi)
    (device : Option Bool) (mounted : Int16 × ℕ) (alloc allocPath : Bool) :
    d.FailsClean (d.fsMount path fs device mounted alloc allocPath) ↔
      (fs.isSome → d.vfs.Accepted path device mounted.1 → alloc ∧ allocPath) := by
  have hr := hd.listed.referenced
  cases fs with
  | none => exact iff_of_true (fun _ => ⟨rfl, rfl⟩) (by simp)
  | some api =>
    simp only [fsMount, Option.isSome_some, true_implies, FailsClean]
    by_cases ha : d.vfs.Accepted path device mounted.1
    · by_cases halloc : alloc ∧ allocPath
      · refine iff_of_true (fun herr => ?_) fun _ => halloc
        rw [halloc.1, halloc.2, mount_succeeds ha] at herr
        exact absurd herr (by decide)
      · rw [mount_accepted ha halloc]
        refine iff_of_false (fun h => ?_) fun h => halloc (h ha)
        have herr : errNoMem < 0 := by decide
        exact absurd (h herr).2 (List.cons_ne_self _ _)
    · rw [mount_refused hr ha]
      exact iff_of_true (fun _ => ⟨rfl, rfl⟩) fun h => absurd h ha

/-- A device that is not there. -/
theorem fs_mount_fails_clean_device :
    oneMount.vfs.Reachable ∧
      oneMount.FailsClean (oneMount.fsMount [slash, 98] (some ⟨true, true, true, true, true, true⟩)
        (some false) (0, 7) true true) :=
  ⟨oneMount_reachable, (fs_mount_fails_clean_iff _ oneMount_reachable _ _ _ _ _ _).mpr
    fun _ h => absurd rfl h.1⟩

/-- A mount at `/b` without memory for the `struct fs_mount`: the instance 7 stays mounted. -/
theorem not_failsClean_noMem :
    ¬ oneMount.FailsClean (oneMount.fsMount [slash, 98] (some ⟨true, true, true, true, true, true⟩) none
      (0, 7) false true) := by
  intro h
  have hkept : (oneMount.fsMount [slash, 98] (some ⟨true, true, true, true, true, true⟩) none
      (0, 7) false true).1.instances = [7, 5] := by
    decide
  have hsame := (h (by decide)).2
  rw [hkept] at hsame
  exact absurd hsame (by decide)

/-- **Opens, exactly.** For every mount table that is reached, every path and driver, and every outcome of the
allocation: each of the three opens is all or nothing if and only if there is memory for the handle whenever
its callback succeeds. -/
theorem fs_open_all_or_nothing_iff (d : Dispatch) (hd : d.vfs.Reachable) (path : List Char8)
    (driver : Callback (Int16 × ℕ)) (alloc : Bool) :
    (d.AllOrNothing .file driver (d.fsOpenFile path driver alloc) ↔
      (d.CallbackSucceeds (fun _ => true) path driver → alloc)) ∧
    (d.AllOrNothing .file driver (d.fsCreateFile path driver alloc) ↔
      (d.CallbackSucceeds FsApi.create path driver → alloc)) ∧
    (d.AllOrNothing .dir driver (d.fsOpenDir path driver alloc) ↔
      (d.CallbackSucceeds FsApi.opendir path driver → alloc)) :=
  have hr := hd.listed.referenced
  ⟨fsOpenFile_iff hr, fsCreateFile_iff hr, fsOpenDir_iff hr⟩

/-- The path `/a/f`, with memory for the handle. -/
theorem fs_open_all_or_nothing_handle :
    oneMount.vfs.Reachable ∧
      oneMount.AllOrNothing .file (fun _ _ => (0, 7))
        (oneMount.fsOpenFile [slash, 97, slash, 102] (fun _ _ => (0, 7)) true) :=
  ⟨oneMount_reachable, (fs_open_all_or_nothing_iff _ oneMount_reachable _ _ _).1.mpr fun _ => rfl⟩

/-- The path `/a/f`, without memory: none of the three opens is all or nothing. -/
theorem not_allOrNothing_noMem :
    ¬ oneMount.AllOrNothing .file (fun _ _ => (0, 7))
        (oneMount.fsOpenFile [slash, 97, slash, 102] (fun _ _ => (0, 7)) false) ∧
      ¬ oneMount.AllOrNothing .file (fun _ _ => (0, 7))
        (oneMount.fsCreateFile [slash, 97, slash, 102] (fun _ _ => (0, 7)) false) ∧
      ¬ oneMount.AllOrNothing .dir (fun _ _ => (0, 7))
        (oneMount.fsOpenDir [slash, 97, slash, 102] (fun _ _ => (0, 7)) false) := by
  have hr := oneMount_reachable.listed.referenced
  have hm : oneMount.vfs.lookup (tempPath [slash, 97, slash, 102]) = some 0 := by decide
  refine ⟨fun h => ?_, fun h => ?_, fun h => ?_⟩
  · simpa using (fsOpenFile_iff hr).mp h ⟨0, hm, rfl, by decide⟩
  · simpa using (fsCreateFile_iff hr).mp h ⟨0, hm, rfl, by decide⟩
  · simpa using (fsOpenDir_iff hr).mp h ⟨0, hm, rfl, by decide⟩

end I80k.Kernel

import I80k.Kernel.Fs.MountOrder

/-!
# The calls of file systems

The functions of `fs.c` pass their work on to the callbacks of a file system, and keep what these hand out:
the instance that `api->mount` makes, and the cookies of `api->open`, `api->create` and `api->opendir`. The
state of `Vfs` has the side of `fs.c`; here it stands beside the side of the file systems: the paths that
they were asked for, and what they have handed out and not got back.

## Main definitions

* `Dispatch`: the state of `fs.c`, and what its file systems were asked for and have handed out
* `Dispatch.fsMount`, `Dispatch.fsOpenFile`, `Dispatch.fsCreateFile`, `Dispatch.fsOpenDir`,
  `Dispatch.fsRemoveFile`, `Dispatch.fsMakeDir`: the functions that take a path
* `Vfs.Reachable`: the mount tables of the runs of `fs.c`

## Main results

* `Dispatch.fsOpenFile_some`, `Dispatch.fsCreateFile_some` and so on: the functions, case by case
* `Dispatch.vfs_fsMount`, `Dispatch.vfs_fsOpenFile` and so on: they are the functions of `Vfs`
* `Dispatch.putMount_found`: the reference that a call takes and drops leaves no trace
-/

namespace I80k.Kernel

open StepSystem

/-- A mount table that some run of the operations gets to, from no mounts. A failed allocation leaves the
table as it was, so that it makes no others reachable. -/
def Vfs.Reachable (s : Vfs) : Prop := ∃ store ops, run Vfs.step (Vfs.init store) ops = some s

theorem Vfs.api_addRef (s : Vfs) (m : MountId) : ((s.addRef m).store m).api = (s.store m).api := by
  simp [Vfs.addRef, Vfs.modify]

theorem Vfs.Reachable.listed {s : Vfs} (h : s.Reachable) : s.Listed := by
  obtain ⟨store, ops, hrun⟩ := h
  have hinit : Vfs.Listed (Vfs.init store) := by
    constructor <;> simp [Vfs.init]
  exact run_invariant Vfs.step (fun s op s' hl hs => (Vfs.Listed.step hl hs).1) hinit hrun

/-- The state of `fs.c` beside what its file systems have seen of it. -/
structure Dispatch where
  vfs : Vfs
  /-- `mount->cookie`. -/
  cookie : MountId → ℕ
  /-- The instances that `api->mount` made, and that were not passed to `api->unmount`. -/
  instances : List ℕ
  /-- The cookies that a file system handed out for files and directories, and that were not closed. -/
  opened : List (HandleKind × ℕ)
  /-- The mounts and the paths below them that callbacks were called with, the last ones first. -/
  asked : List (MountId × List Char8)

namespace Dispatch

variable (d : Dispatch)

def findMount (path : List Char8) : Option (Dispatch × MountId × List Char8) :=
  (d.vfs.findMount path).map fun r => ({ d with vfs := r.1 }, r.2.1, r.2.2)

/-- Drops a reference; with the last one `api->unmount` gets its instance back. -/
def putMount (m : MountId) : Dispatch :=
  { d with
    vfs := d.vfs.putMount m
    instances :=
      if ((d.vfs.dropRef m).store m).ref = 0 then d.instances.erase (d.cookie m) else d.instances }

/-- A callback is called with a path below a mount. -/
def ask (m : MountId) (newpath : List Char8) : Dispatch :=
  { d with asked := (m, newpath) :: d.asked }

/-- A file system hands out a cookie. -/
def receive (kind : HandleKind) (cookie : ℕ) : Dispatch :=
  { d with opened := (kind, cookie) :: d.opened }

def addRef (m : MountId) : Dispatch := { d with vfs := d.vfs.addRef m }

def addHandle (h : Handle) : Dispatch := { d with vfs := d.vfs.addHandle h }

/-! ## The functions of `fs.c` -/

/-- `mounted` is the result of `api->mount` and the instance that it made. -/
def mount (path : List Char8) (device : Option Bool) (api : FsApi) (mounted : Int16 × ℕ)
    (alloc allocPath : Bool) : Dispatch × Int16 :=
  let temppath := tempPath path
  if temppath.head? ≠ some slash then (d, errInval)
  else
    match d.findMount temppath with
    | some (d, m, _) => (d.putMount m, errInval)
    | none =>
      if device = some false then (d, errNoDev)
      else
        let (err, cookie) := mounted
        if err < 0 then (d, err)
        else
          let d := { d with instances := cookie :: d.instances }
          if ¬ alloc then (d, errNoMem)
          else if ¬ allocPath then (d, errNoMem)
          else
            ({ d with
                vfs := d.vfs.added temppath api
                cookie := Function.update d.cookie d.vfs.next cookie }, 0)

def fsMount (path : List Char8) (fs : Option FsApi) (device : Option Bool) (mounted : Int16 × ℕ)
    (alloc allocPath : Bool) : Dispatch × Int16 :=
  match fs with
  | none => (d, errNoEntry)
  | some api => d.mount path device api mounted alloc allocPath

/-- What an open gives its caller: the result, and what is stored in `*handle`; nothing if a null pointer was
written through. -/
abbrev Opening := Dispatch × Option (Int16 × Option Handle)

/-- Without memory for the handle it writes through a null pointer. -/
def fsOpenFile (path : List Char8) (driver : Callback (Int16 × ℕ)) (alloc : Bool) : Opening :=
  match d.findMount (tempPath path) with
  | none => (d, some (errNoEntry, none))
  | some (d, m, newpath) =>
    let d := d.ask m newpath
    let (err, cookie) := driver m newpath
    if err < 0 then (d.putMount m, some (err, none))
    else
      let d := d.receive .file cookie
      if ¬ alloc then (d, none)
      else (d.addHandle ⟨.file, m, cookie⟩, some (0, some ⟨.file, m, cookie⟩))

/-- Without memory for the handle it returns the result of the callback. -/
def fsCreateFile (path : List Char8) (driver : Callback (Int16 × ℕ)) (alloc : Bool) : Opening :=
  match d.findMount (tempPath path) with
  | none => (d, some (errNoEntry, none))
  | some (d, m, newpath) =>
    if ¬ (d.vfs.store m).api.create then (d.putMount m, some (-1, none))
    else
      let d := d.ask m newpath
      let (err, cookie) := driver m newpath
      if err < 0 then (d.putMount m, some (err, none))
      else
        let d := d.receive .file cookie
        if ¬ alloc then (d.putMount m, some (err, none))
        else (d.addHandle ⟨.file, m, cookie⟩, some (0, some ⟨.file, m, cookie⟩))

def fsOpenDir (path : List Char8) (driver : Callback (Int16 × ℕ)) (alloc : Bool) : Opening :=
  match d.findMount (tempPath path) with
  | none => (d, some (errNoEntry, none))
  | some (d, m, newpath) =>
    if ¬ (d.vfs.store m).api.opendir then (d.putMount m, some (errNotSupp, none))
    else
      let d := d.ask m newpath
      let (err, cookie) := driver m newpath
      if err < 0 then (d.putMount m, some (err, none))
      else
        let d := d.receive .dir cookie
        if ¬ alloc then (d.putMount m, some (errNoMem, none))
        else (d.addHandle ⟨.dir, m, cookie⟩, some (0, some ⟨.dir, m, cookie⟩))

/-- A call that only passes through a mount. -/
def passThrough (path : List Char8) (has : FsApi → Bool) (driver : Callback Int16) : Dispatch × Int16 :=
  match d.findMount path with
  | none => (d, errNoEntry)
  | some (d, m, newpath) =>
    if ¬ has (d.vfs.store m).api then (d.putMount m, errNotSupp)
    else ((d.ask m newpath).putMount m, driver m newpath)

def fsRemoveFile (path : List Char8) (driver : Callback Int16) : Dispatch × Int16 :=
  d.passThrough (tempPath path) FsApi.remove driver

def fsMakeDir (path : List Char8) (driver : Callback Int16) : Dispatch × Int16 :=
  d.passThrough (tempPath path) FsApi.mkdir driver

/-! ## The functions, case by case -/

section Cases

variable {d} {path : List Char8} {m : MountId}

theorem findMount_none (h : d.vfs.lookup path = none) : d.findMount path = none := by
  simp [findMount, Vfs.findMount, h]

theorem findMount_some (h : d.vfs.lookup path = some m) :
    d.findMount path = some (d.addRef m, m, trimmedPath path (d.vfs.store m).path) := by
  simp [findMount, Vfs.findMount, h, addRef]

theorem api_addRef : ((d.addRef m).vfs.store m).api = (d.vfs.store m).api := Vfs.api_addRef d.vfs m

/-- The reference that a call takes and drops leaves no trace on a mount of the table. -/
theorem putMount_found (hr : d.vfs.Referenced) (h : d.vfs.lookup path = some m) :
    (d.addRef m).putMount m = d := by
  have href := hr m (Vfs.mem_of_lookup h)
  have hvfs := Vfs.putMount_addRef href
  simp only [putMount, addRef, hvfs, Vfs.dropRef_addRef, if_neg href]

/-- The three opens from the call of the callback on. They differ in `kept`, what they do without memory. -/
def afterCallback (d : Dispatch) (kind : HandleKind) (m : MountId) (newpath : List Char8) (result : Int16 × ℕ)
    (alloc : Bool) (kept : Dispatch → Opening) : Opening :=
  if result.1 < 0 then (((d.addRef m).ask m newpath).putMount m, some (result.1, none))
  else if ¬ alloc then kept (((d.addRef m).ask m newpath).receive kind result.2)
  else ((((d.addRef m).ask m newpath).receive kind result.2).addHandle ⟨kind, m, result.2⟩,
    some (0, some ⟨kind, m, result.2⟩))

variable {driver : Callback (Int16 × ℕ)} {alloc : Bool}

theorem fsOpenFile_none (hm : d.vfs.lookup (tempPath path) = none) :
    d.fsOpenFile path driver alloc = (d, some (errNoEntry, none)) := by
  unfold fsOpenFile
  rw [findMount_none hm]

theorem fsOpenFile_some (hm : d.vfs.lookup (tempPath path) = some m) :
    d.fsOpenFile path driver alloc =
      d.afterCallback .file m (trimmedPath (tempPath path) (d.vfs.store m).path)
        (driver m (trimmedPath (tempPath path) (d.vfs.store m).path)) alloc fun d => (d, none) := by
  unfold fsOpenFile
  rw [findMount_some hm]
  rfl

theorem fsCreateFile_none (hm : d.vfs.lookup (tempPath path) = none) :
    d.fsCreateFile path driver alloc = (d, some (errNoEntry, none)) := by
  unfold fsCreateFile
  rw [findMount_none hm]

theorem fsCreateFile_some (hm : d.vfs.lookup (tempPath path) = some m) :
    d.fsCreateFile path driver alloc =
      if ¬ (d.vfs.store m).api.create then ((d.addRef m).putMount m, some (-1, none))
      else
        d.afterCallback .file m (trimmedPath (tempPath path) (d.vfs.store m).path)
          (driver m (trimmedPath (tempPath path) (d.vfs.store m).path)) alloc fun d' =>
            (d'.putMount m,
              some ((driver m (trimmedPath (tempPath path) (d.vfs.store m).path)).1, none)) := by
  unfold fsCreateFile
  rw [findMount_some hm]
  dsimp only
  rw [api_addRef]
  rfl

theorem fsOpenDir_none (hm : d.vfs.lookup (tempPath path) = none) :
    d.fsOpenDir path driver alloc = (d, some (errNoEntry, none)) := by
  unfold fsOpenDir
  rw [findMount_none hm]

theorem fsOpenDir_some (hm : d.vfs.lookup (tempPath path) = some m) :
    d.fsOpenDir path driver alloc =
      if ¬ (d.vfs.store m).api.opendir then ((d.addRef m).putMount m, some (errNotSupp, none))
      else
        d.afterCallback .dir m (trimmedPath (tempPath path) (d.vfs.store m).path)
          (driver m (trimmedPath (tempPath path) (d.vfs.store m).path)) alloc fun d' =>
            (d'.putMount m, some (errNoMem, none)) := by
  unfold fsOpenDir
  rw [findMount_some hm]
  dsimp only
  rw [api_addRef]
  rfl

variable {has : FsApi → Bool} {driver : Callback Int16}

theorem passThrough_none (hm : d.vfs.lookup path = none) :
    d.passThrough path has driver = (d, errNoEntry) := by
  unfold passThrough
  rw [findMount_none hm]

theorem passThrough_some (hm : d.vfs.lookup path = some m) :
    d.passThrough path has driver =
      if ¬ has (d.vfs.store m).api then ((d.addRef m).putMount m, errNotSupp)
      else (((d.addRef m).ask m (trimmedPath path (d.vfs.store m).path)).putMount m,
        driver m (trimmedPath path (d.vfs.store m).path)) := by
  unfold passThrough
  rw [findMount_some hm]
  dsimp only
  rw [api_addRef]

end Cases

/-! ## The side of `fs.c` -/

/-- The new state of `fs.c`, and the result. -/
def onVfs (r : Dispatch × Int16) : Vfs × Int16 := (r.1.vfs, r.2)

/-- The new state of `fs.c` and the result of an open, unless a null pointer was written through. -/
def Opening.onVfs (r : Opening) : Option (Vfs × Int16) := r.2.map fun result => (r.1.vfs, result.1)

variable (path : List Char8) (alloc : Bool)

theorem vfs_fsMount (fs : Option FsApi) (device : Option Bool) (mounted : Int16 × ℕ) (allocPath : Bool) :
    onVfs (d.fsMount path fs device mounted alloc allocPath) =
      d.vfs.fsMount path fs device mounted.1 alloc allocPath := by
  cases fs with
  | none => rfl
  | some api =>
    unfold Vfs.fsMount fsMount Vfs.mount mount
    cases hm : d.vfs.lookup (tempPath path) with
    | none =>
      simp only [findMount_none hm, Vfs.findMount, hm, Option.map_none]
      split_ifs <;> rfl
    | some m =>
      simp only [findMount_some hm, Vfs.findMount, hm, Option.map_some]
      split_ifs <;> rfl

theorem vfs_fsOpenFile (driver : Callback (Int16 × ℕ)) :
    (d.fsOpenFile path driver alloc).onVfs = d.vfs.fsOpenFile path driver alloc := by
  unfold Vfs.fsOpenFile
  cases hm : d.vfs.lookup (tempPath path) with
  | none =>
    rw [fsOpenFile_none hm, Vfs.findMount, hm]
    rfl
  | some m =>
    rw [fsOpenFile_some hm, Vfs.findMount, hm, afterCallback]
    dsimp only [Option.map_some]
    split_ifs <;> rfl

theorem vfs_fsCreateFile (driver : Callback (Int16 × ℕ)) :
    (d.fsCreateFile path driver alloc).onVfs = some (d.vfs.fsCreateFile path driver alloc) := by
  unfold Vfs.fsCreateFile
  cases hm : d.vfs.lookup (tempPath path) with
  | none =>
    rw [fsCreateFile_none hm, Vfs.findMount, hm]
    rfl
  | some m =>
    rw [fsCreateFile_some hm, Vfs.findMount, hm, afterCallback]
    dsimp only [Option.map_some]
    rw [Vfs.api_addRef]
    split_ifs <;> rfl

theorem vfs_fsOpenDir (driver : Callback (Int16 × ℕ)) :
    (d.fsOpenDir path driver alloc).onVfs = some (d.vfs.fsOpenDir path driver alloc) := by
  unfold Vfs.fsOpenDir
  cases hm : d.vfs.lookup (tempPath path) with
  | none =>
    rw [fsOpenDir_none hm, Vfs.findMount, hm]
    rfl
  | some m =>
    rw [fsOpenDir_some hm, Vfs.findMount, hm, afterCallback]
    dsimp only [Option.map_some]
    rw [Vfs.api_addRef]
    split_ifs <;> rfl

/-- `fs_remove_file` and `fs_make_dir`, too. -/
theorem vfs_passThrough (has : FsApi → Bool) (driver : Callback Int16) :
    onVfs (d.passThrough path has driver) = d.vfs.passThrough path has driver := by
  unfold Vfs.passThrough
  cases hm : d.vfs.lookup path with
  | none =>
    rw [passThrough_none hm, Vfs.findMount, hm]
    rfl
  | some m =>
    rw [passThrough_some hm, Vfs.findMount, hm]
    dsimp only [Option.map_some]
    rw [Vfs.api_addRef]
    split_ifs <;> rfl

/-- A file system with all callbacks, mounted at `/a`. -/
def oneMount : Dispatch where
  vfs := ⟨fun _ => ⟨[slash, 97], 1, ⟨true, true, true, true, true, true⟩, false⟩, 1, [0], [], []⟩
  cookie _ := 5
  instances := [5]
  opened := []
  asked := []

theorem oneMount_reachable : oneMount.vfs.Reachable := by
  have hpath : tempPath [slash, 97] = [slash, 97] := by decide
  have haccepted : (Vfs.init oneMount.vfs.store).Accepted [slash, 97] none 0 := by
    refine ⟨by simp, by decide, by rw [hpath]; rfl, fun m hm => ?_⟩
    exact absurd hm List.not_mem_nil
  have hadded := Vfs.Listed.mount_accepted haccepted ⟨true, true, true, true, true, true⟩
  -- The structure in the store is the new one already.
  have hupdate : Function.update oneMount.vfs.store 0
      ⟨[slash, 97], 1, ⟨true, true, true, true, true, true⟩, false⟩ = oneMount.vfs.store :=
    Function.update_eq_self 0 oneMount.vfs.store
  refine ⟨oneMount.vfs.store,
    [.mount [slash, 97] (some ⟨true, true, true, true, true, true⟩) none 0], congrArg some ?_⟩
  refine hadded.trans ?_
  rw [hpath, Vfs.added, Vfs.init, hupdate]
  rfl

end Dispatch

end I80k.Kernel

import I80k.Kernel.Error
import I80k.Kernel.Fs.Path

/-!
# Mounts and handles

`kernel/core/fs.c` dispatches the operations on paths to the file systems mounted there. A mount has a
count of references: one for being mounted, one for each open handle, and one for the time of a call.
`find_mount` takes a reference, `put_mount` drops one, and the mount goes away with its last reference.

The callbacks of a file system are parameters of the operations that call them: they get the mount and
the path below it, and return any result. The structures of mounts have identities that are not used
again; what the memory of a freed one holds does not change.

## Main definitions

* `FsMount`, `Handle`, `Vfs`: a mount, an open handle, and the state of `fs.c`
* `findMount`, `putMount`: take and drop a reference
* `fsMount`, `fsUnmount`, `fsOpenFile`, `fsCreateFile`, `fsCloseFile`, `fsRemoveFile`, `fsMakeDir`,
  `fsOpenDir`, `fsCloseDir`, `fsStatFs`: the functions of `fs.c`

## Main results

* `putMount_addRef`: the reference that a call takes and drops leaves no trace
-/

namespace I80k.Kernel

/-- The callbacks that a `struct fs_api` may leave out: which of them it has. -/
structure FsApi where
  create : Bool
  remove : Bool
  mkdir : Bool
  opendir : Bool
  closedir : Bool
  fsStat : Bool

/-- The identity of a mount structure. -/
abbrev MountId := ℕ

/-- `struct fs_mount`. The count does not overflow: handles take memory of a segment of 64 KiB. -/
structure FsMount where
  path : List Char8
  ref : ℤ
  api : FsApi
  /-- Not in the source: an `fs_unmount` has found the mount. -/
  unmounted : Bool

inductive HandleKind
  | file
  | dir
  deriving DecidableEq

/-- `struct filehandle` or `struct dirhandle`. -/
structure Handle where
  kind : HandleKind
  mount : MountId
  cookie : ℕ
  deriving DecidableEq

/-- A callback that gets a mount and the path below it. -/
abbrev Callback (α : Type) := MountId → List Char8 → α

/-- The state of `fs.c`: the mount structures, the list of mounts, the handles that are open, and the
mounts that were freed, the last one first. -/
structure Vfs where
  store : MountId → FsMount
  next : MountId
  mounts : List MountId
  handles : List Handle
  freed : List MountId

/-- The mount path is the path, or a directory on it. -/
def MatchesMount (path mountPath : List Char8) : Prop :=
  mountPath.length ≤ path.length ∧ path.take mountPath.length = mountPath ∧
    (path.getD mountPath.length 0 = slash ∨ path.getD mountPath.length 0 = 0)

instance (path mountPath : List Char8) : Decidable (MatchesMount path mountPath) :=
  inferInstanceAs (Decidable (_ ∧ _))

/-- The path below the mount, at least a separator. -/
def trimmedPath (path mountPath : List Char8) : List Char8 :=
  if path.drop mountPath.length = [] then [slash] else path.drop mountPath.length

namespace Vfs

def modify (s : Vfs) (m : MountId) (f : FsMount → FsMount) : Vfs :=
  { s with store := Function.update s.store m (f (s.store m)) }

/-- `mount->ref++`. -/
def addRef (s : Vfs) (m : MountId) : Vfs := s.modify m fun mount => { mount with ref := mount.ref + 1 }

/-- `--mount->ref`. -/
def dropRef (s : Vfs) (m : MountId) : Vfs := s.modify m fun mount => { mount with ref := mount.ref - 1 }

/-- The first mount that matches an absolute path. -/
def lookup (s : Vfs) (path : List Char8) : Option MountId :=
  if path.head? = some slash then s.mounts.find? fun m => MatchesMount path (s.store m).path else none

/-- Finds the mount of a path, takes a reference to it, and cuts the path. -/
def findMount (s : Vfs) (path : List Char8) : Option (Vfs × MountId × List Char8) :=
  (s.lookup path).map fun m => (s.addRef m, m, trimmedPath path (s.store m).path)

/-- Drops a reference. With the last one the mount leaves the list, its file system is unmounted, and
its memory is freed. -/
def putMount (s : Vfs) (m : MountId) : Vfs :=
  let s := s.dropRef m
  if (s.store m).ref = 0 then { s with mounts := s.mounts.erase m, freed := m :: s.freed } else s

/-- Opens a handle. -/
def addHandle (s : Vfs) (h : Handle) : Vfs := { s with handles := h :: s.handles }

/-- The end of a close that succeeded: drops the reference of the handle and frees it. -/
def release (s : Vfs) (h : Handle) : Vfs :=
  { s.putMount h.mount with handles := s.handles.erase h }

/-! ## The functions of `fs.c` -/

/-- Mounts a file system at `path`. `device` says whether the device is there, if one is named;
`mounted` is the result of `api->mount`; `alloc` and `allocPath` say whether the two allocations
succeed. -/
def mount (s : Vfs) (path : List Char8) (device : Option Bool) (api : FsApi) (mounted : Int16)
    (alloc allocPath : Bool) : Vfs × Int16 :=
  let temppath := tempPath path
  if temppath.head? ≠ some slash then (s, errInval)
  else
    match s.findMount temppath with
    | some (s, m, _) => (s.putMount m, errInval)
    | none =>
      if device = some false then (s, errNoDev)
      else if mounted < 0 then (s, mounted)
      else if ¬ alloc then (s, errNoMem)
      else if ¬ allocPath then (s, errNoMem)
      else
        ({ s with
            store := Function.update s.store s.next ⟨temppath, 1, api, false⟩
            next := s.next + 1
            mounts := s.next :: s.mounts }, 0)

/-- `fs` is what `find_fs` finds under the name. -/
def fsMount (s : Vfs) (path : List Char8) (fs : Option FsApi) (device : Option Bool) (mounted : Int16)
    (alloc allocPath : Bool) : Vfs × Int16 :=
  match fs with
  | none => (s, errNoEntry)
  | some api => s.mount path device api mounted alloc allocPath

/-- Returns the reference that `find_mount` added and one extra. -/
def fsUnmount (s : Vfs) (path : List Char8) : Vfs × Int16 :=
  match s.findMount (tempPath path) with
  | none => (s, errNoEntry)
  | some (s, m, _) =>
    let s := s.modify m fun mount => { mount with unmounted := true }
    ((s.putMount m).putMount m, 0)

/-- Without memory for the handle it writes through a null pointer. -/
def fsOpenFile (s : Vfs) (path : List Char8) (driver : Callback (Int16 × ℕ)) (alloc : Bool) :
    Option (Vfs × Int16) :=
  match s.findMount (tempPath path) with
  | none => some (s, errNoEntry)
  | some (s, m, newpath) =>
    let (err, cookie) := driver m newpath
    if err < 0 then some (s.putMount m, err)
    else if ¬ alloc then none
    else some (s.addHandle ⟨.file, m, cookie⟩, 0)

/-- Without memory for the handle it returns the result of the driver. -/
def fsCreateFile (s : Vfs) (path : List Char8) (driver : Callback (Int16 × ℕ)) (alloc : Bool) :
    Vfs × Int16 :=
  match s.findMount (tempPath path) with
  | none => (s, errNoEntry)
  | some (s, m, newpath) =>
    if ¬ (s.store m).api.create then (s.putMount m, -1)
    else
      let (err, cookie) := driver m newpath
      if err < 0 then (s.putMount m, err)
      else if ¬ alloc then (s.putMount m, err)
      else (s.addHandle ⟨.file, m, cookie⟩, 0)

def fsOpenDir (s : Vfs) (path : List Char8) (driver : Callback (Int16 × ℕ)) (alloc : Bool) :
    Vfs × Int16 :=
  match s.findMount (tempPath path) with
  | none => (s, errNoEntry)
  | some (s, m, newpath) =>
    if ¬ (s.store m).api.opendir then (s.putMount m, errNotSupp)
    else
      let (err, cookie) := driver m newpath
      if err < 0 then (s.putMount m, err)
      else if ¬ alloc then (s.putMount m, errNoMem)
      else (s.addHandle ⟨.dir, m, cookie⟩, 0)

/-- `err` is the result of the callback. -/
def fsCloseFile (s : Vfs) (h : Handle) (err : Int16) : Vfs × Int16 :=
  if err < 0 then (s, err) else (s.release h, 0)

def fsCloseDir (s : Vfs) (h : Handle) (err : Int16) : Vfs × Int16 :=
  if ¬ (s.store h.mount).api.closedir then (s, errNotSupp)
  else if err < 0 then (s, err) else (s.release h, 0)

/-- A call that only passes through a mount: the callback is optional, and its result is returned. -/
def passThrough (s : Vfs) (path : List Char8) (has : FsApi → Bool) (driver : Callback Int16) :
    Vfs × Int16 :=
  match s.findMount path with
  | none => (s, errNoEntry)
  | some (s, m, newpath) =>
    if ¬ has (s.store m).api then (s.putMount m, errNotSupp) else (s.putMount m, driver m newpath)

def fsRemoveFile (s : Vfs) (path : List Char8) (driver : Callback Int16) : Vfs × Int16 :=
  s.passThrough (tempPath path) FsApi.remove driver

def fsMakeDir (s : Vfs) (path : List Char8) (driver : Callback Int16) : Vfs × Int16 :=
  s.passThrough (tempPath path) FsApi.mkdir driver

/-- The mount point is taken as it is. -/
def fsStatFs (s : Vfs) (mountpoint : List Char8) (stat : Bool) (driver : Callback Int16) :
    Vfs × Int16 :=
  if ¬ stat then (s, errInval) else s.passThrough mountpoint FsApi.fsStat driver

/-! ## References -/

variable {s : Vfs} {m : MountId}

theorem dropRef_addRef : (s.addRef m).dropRef m = s := by
  simp [addRef, dropRef, modify]

/-- The reference that a call takes and drops leaves no trace on a mount that has one. -/
theorem putMount_addRef (h : (s.store m).ref ≠ 0) : (s.addRef m).putMount m = s := by
  rw [putMount, dropRef_addRef, if_neg h]

end Vfs

end I80k.Kernel

import I80k.Kernel.Fs.Dispatch
import I80k.Kernel.Fs.Normalize

/-!
# The path that a file system gets

A function of `fs.c` that takes a path copies it to a buffer of `FS_MAX_PATH_LEN` bytes, normalises it there,
finds the mount that it begins with, and passes the rest to the file system. `strlcpy` returns the length of
the string it was to copy, so that the caller can see that it did not fit; nothing looks at it, and the file
system is asked for the path that the first 127 characters name.

## Main definitions

* `PathOp`, `Dispatch.perform`: the functions that pass a path to a file system
* `Dispatch.target`: the mount whose callback is called, and the path that it is called with
* `Dispatch.AsksWhole`: the callback gets what follows the mount in the whole path
* `Dispatch.RefusesLong`: a path that does not fit in the buffer is refused

## Main results

* `Dispatch.asked_perform`: the calls of the callbacks
* `Dispatch.asksWhole_iff`: the path is the right one if the characters cut off do not matter
* `fs_driver_path_iff`: the two properties together hold of the paths that fit, and where nothing is called
-/

namespace I80k.Kernel

open FieldStack

/-- The functions that pass a path to a file system. -/
inductive PathOp
  | openFile
  | createFile
  | removeFile
  | makeDir
  | openDir

/-- The callback is there. `fs_open_file` does not ask. -/
def PathOp.has : PathOp → FsApi → Bool
  | .openFile, _ => true
  | .createFile, api => api.create
  | .removeFile, api => api.remove
  | .makeDir, api => api.mkdir
  | .openDir, api => api.opendir

namespace Dispatch

/-- The call of a function, and its result; none if a null pointer was written through. -/
def perform (d : Dispatch) (op : PathOp) (path : List Char8) (driver : Callback (Int16 × ℕ)) (alloc : Bool) :
    Dispatch × Option Int16 :=
  match op with
  | .openFile => (d.fsOpenFile path driver alloc).map id (·.map Prod.fst)
  | .createFile => (d.fsCreateFile path driver alloc).map id (·.map Prod.fst)
  | .removeFile => (d.fsRemoveFile path fun m newpath => (driver m newpath).1).map id some
  | .makeDir => (d.fsMakeDir path fun m newpath => (driver m newpath).1).map id some
  | .openDir => (d.fsOpenDir path driver alloc).map id (·.map Prod.fst)

/-- The mount of a path and the path below it, if the file system has the callback. -/
def target (d : Dispatch) (op : PathOp) (path : List Char8) : Option (MountId × List Char8) :=
  (d.vfs.lookup (tempPath path)).bind fun m =>
    if op.has (d.vfs.store m).api then some (m, trimmedPath (tempPath path) (d.vfs.store m).path) else none

/-- The callbacks that were called from `d` to `r` got what follows the path of their mount in the normalised
path, at least a separator. -/
def AsksWhole (d : Dispatch) (path : List Char8) (r : Dispatch × Option Int16) : Prop :=
  ∃ calls, r.1.asked = calls ++ d.asked ∧ ∀ c ∈ calls, ∃ rest,
    normalized slash period path = (d.vfs.store c.1).path ++ rest ∧
      c.2 = if rest = [] then [slash] else rest

/-- A path that does not fit in the buffer is refused with an error, and no callback is called. -/
def RefusesLong (d : Dispatch) (path : List Char8) (r : Dispatch × Option Int16) : Prop :=
  fsMaxPathLen ≤ path.length → r.1.asked = d.asked ∧ ∃ err < 0, r.2 = some err

variable {d : Dispatch} {op : PathOp} {path : List Char8} {m : MountId}

/-! ## The calls -/

theorem target_none (hm : d.vfs.lookup (tempPath path) = none) : d.target op path = none := by
  rw [target, hm, Option.bind_none]

theorem target_some (hm : d.vfs.lookup (tempPath path) = some m) :
    d.target op path = if op.has (d.vfs.store m).api
      then some (m, trimmedPath (tempPath path) (d.vfs.store m).path) else none := by
  rw [target, hm, Option.bind_some]

/-- An error that is returned without a call. -/
theorem perform_none (hm : d.vfs.lookup (tempPath path) = none) (driver : Callback (Int16 × ℕ))
    (alloc : Bool) : d.perform op path driver alloc = (d, some errNoEntry) := by
  cases op with
  | openFile =>
    rw [perform, fsOpenFile_none hm]
    rfl
  | createFile =>
    rw [perform, fsCreateFile_none hm]
    rfl
  | removeFile =>
    rw [perform, fsRemoveFile, passThrough_none hm]
    rfl
  | makeDir =>
    rw [perform, fsMakeDir, passThrough_none hm]
    rfl
  | openDir =>
    rw [perform, fsOpenDir_none hm]
    rfl

/-- So it is where the file system lacks the callback. -/
theorem perform_lacking (hm : d.vfs.lookup (tempPath path) = some m)
    (hhas : ¬ op.has (d.vfs.store m).api = true) (driver : Callback (Int16 × ℕ)) (alloc : Bool) :
    ∃ err < 0, d.perform op path driver alloc = ((d.addRef m).putMount m, some err) := by
  cases op with
  | openFile => exact absurd rfl hhas
  | createFile =>
    refine ⟨-1, by decide, ?_⟩
    rw [PathOp.has] at hhas
    rw [perform, fsCreateFile_some hm, if_pos hhas]
    rfl
  | removeFile =>
    refine ⟨errNotSupp, by decide, ?_⟩
    rw [PathOp.has] at hhas
    rw [perform, fsRemoveFile, passThrough_some hm, if_pos hhas]
    rfl
  | makeDir =>
    refine ⟨errNotSupp, by decide, ?_⟩
    rw [PathOp.has] at hhas
    rw [perform, fsMakeDir, passThrough_some hm, if_pos hhas]
    rfl
  | openDir =>
    refine ⟨errNotSupp, by decide, ?_⟩
    rw [PathOp.has] at hhas
    rw [perform, fsOpenDir_some hm, if_pos hhas]
    rfl

theorem asked_afterCallback {kind : HandleKind} {newpath : List Char8} {result : Int16 × ℕ} {alloc : Bool}
    {kept : Dispatch → Opening} (hkept : ∀ d', (kept d').1.asked = d'.asked) :
    (d.afterCallback kind m newpath result alloc kept).1.asked = (m, newpath) :: d.asked := by
  rw [afterCallback]
  split_ifs
  · rfl
  · rfl
  · exact hkept _

/-- Where it has the callback, this is called. -/
theorem asked_calling (hm : d.vfs.lookup (tempPath path) = some m) (hhas : op.has (d.vfs.store m).api = true)
    (driver : Callback (Int16 × ℕ)) (alloc : Bool) :
    (d.perform op path driver alloc).1.asked =
      (m, trimmedPath (tempPath path) (d.vfs.store m).path) :: d.asked := by
  cases op with
  | openFile =>
    rw [perform, fsOpenFile_some hm, Prod.map_fst]
    apply asked_afterCallback
    intro d'
    rfl
  | createFile =>
    rw [PathOp.has] at hhas
    rw [perform, fsCreateFile_some hm, if_neg (not_not.mpr hhas), Prod.map_fst]
    apply asked_afterCallback
    intro d'
    rfl
  | removeFile =>
    rw [PathOp.has] at hhas
    rw [perform, fsRemoveFile, passThrough_some hm, if_neg (not_not.mpr hhas)]
    rfl
  | makeDir =>
    rw [PathOp.has] at hhas
    rw [perform, fsMakeDir, passThrough_some hm, if_neg (not_not.mpr hhas)]
    rfl
  | openDir =>
    rw [PathOp.has] at hhas
    rw [perform, fsOpenDir_some hm, if_neg (not_not.mpr hhas), Prod.map_fst]
    apply asked_afterCallback
    intro d'
    rfl

/-- The callback of the target is called, and no other. -/
theorem asked_perform (driver : Callback (Int16 × ℕ)) (alloc : Bool) :
    (d.perform op path driver alloc).1.asked = (d.target op path).toList ++ d.asked := by
  cases hm : d.vfs.lookup (tempPath path) with
  | none =>
    rw [perform_none hm, target_none hm]
    rfl
  | some m =>
    rw [target_some hm]
    by_cases hhas : op.has (d.vfs.store m).api = true
    · rw [if_pos hhas, asked_calling hm hhas]
      rfl
    · obtain ⟨err, -, hperform⟩ := perform_lacking hm hhas driver alloc
      rw [if_neg hhas, hperform]
      rfl

/-- Where nothing is called an error is returned. -/
theorem refused_perform (h : d.target op path = none) (driver : Callback (Int16 × ℕ)) (alloc : Bool) :
    ∃ err < 0, (d.perform op path driver alloc).2 = some err := by
  cases hm : d.vfs.lookup (tempPath path) with
  | none => exact ⟨errNoEntry, by decide, by rw [perform_none hm]⟩
  | some m =>
    have hhas : ¬ op.has (d.vfs.store m).api = true := by simpa [target_some hm] using h
    obtain ⟨err, hneg, hperform⟩ := perform_lacking hm hhas driver alloc
    exact ⟨err, hneg, by rw [hperform]⟩

/-! ## The paths -/

/-- The mount that is found is at the beginning of the path. -/
theorem exists_rest_of_lookup (hm : d.vfs.lookup (tempPath path) = some m) :
    ∃ rest, tempPath path = (d.vfs.store m).path ++ rest := by
  rw [Vfs.lookup] at hm
  split_ifs at hm
  have hmatch := List.find?_some hm
  rw [decide_eq_true_eq, matchesMount_iff (zero_notMem_tempPath path)] at hmatch
  rcases hmatch with heq | ⟨rest, heq⟩
  · exact ⟨[], by rw [heq, List.append_nil]⟩
  · exact ⟨slash :: rest, heq⟩

theorem trimmedPath_append (mountPath rest : List Char8) :
    trimmedPath (mountPath ++ rest) mountPath = if rest = [] then [slash] else rest := by
  rw [trimmedPath, List.drop_left]

/-- What follows a mount in two normalised paths is the same only if they are. -/
theorem normalized_eq_of_trimmed {p q mountPath rest rest' : List Char8}
    (hp : normalized slash period p = mountPath ++ rest) (hq : normalized slash period q = mountPath ++ rest')
    (h : (if rest = [] then [slash] else rest) = if rest' = [] then [slash] else rest') :
    normalized slash period p = normalized slash period q := by
  -- An empty rest could only be mistaken for a trailing separator.
  have hsep : rest ≠ [slash] := by
    rintro rfl
    exact normalized_ne_append_sep p mountPath hp
  have hsep' : rest' ≠ [slash] := by
    rintro rfl
    exact normalized_ne_append_sep q mountPath hq
  rw [hp, hq]
  split_ifs at h with h₁ h₂ h₂
  · rw [h₁, h₂]
  · exact absurd h.symm hsep'
  · exact absurd h hsep
  · rw [h]

theorem target_eq_none_iff : d.target op path = none ↔
    ∀ m, d.vfs.lookup (tempPath path) = some m → op.has (d.vfs.store m).api = false := by
  cases hm : d.vfs.lookup (tempPath path) with
  | none => simp [target_none hm]
  | some m => simp [target_some hm]

/-- **The path of a call.** It is the right one if nothing is called, or if the characters that are cut off
do not change the normalised path. -/
theorem asksWhole_iff (h₀ : 0 ∉ path) (driver : Callback (Int16 × ℕ)) (alloc : Bool) :
    d.AsksWhole path (d.perform op path driver alloc) ↔
      d.target op path = none ∨ normalized slash period (path.take 127) = normalized slash period path := by
  rw [AsksWhole, asked_perform, ← tempPath_eq h₀]
  cases ht : d.target op path with
  | none => simp
  | some c =>
    obtain ⟨m, hm, hc⟩ : ∃ m, d.vfs.lookup (tempPath path) = some m ∧
        c = (m, trimmedPath (tempPath path) (d.vfs.store m).path) := by
      cases hm : d.vfs.lookup (tempPath path) with
      | none => simp [target_none hm] at ht
      | some m =>
        rw [target_some hm] at ht
        split_ifs at ht
        exact ⟨m, rfl, (Option.some.inj ht).symm⟩
    -- The callback gets the rest of the cut path; it is that of the whole one if they are the same.
    obtain ⟨rest, hrest⟩ := exists_rest_of_lookup hm
    have hc₂ : c.2 = if rest = [] then [slash] else rest := by
      rw [hc, hrest, trimmedPath_append]
    have hc₁ : c.1 = m := by rw [hc]
    simp only [Option.toList_some, reduceCtorEq, false_or]
    constructor
    · rintro ⟨calls, hcalls, hall⟩
      obtain rfl : [c] = calls := List.append_cancel_right hcalls
      obtain ⟨rest', hrest', htrim⟩ := hall c (List.mem_singleton_self c)
      rw [hc₁] at hrest'
      rw [tempPath_eq h₀] at hrest ⊢
      exact normalized_eq_of_trimmed hrest hrest' (hc₂.symm.trans htrim)
    · intro heq
      refine ⟨[c], rfl, fun c' hc' => ?_⟩
      obtain rfl := List.mem_singleton.mp hc'
      exact ⟨rest, by rw [← heq, hrest, hc₁], hc₂⟩

end Dispatch

open Dispatch

/-- **The path that a file system gets, exactly.** For every path, every mount table and every result of the
callbacks, of each of the five functions: the callback gets what follows the mount in the whole path if and
only if the mount found for its first 127 characters lacks the callback, or there is none, or these
characters have the same normalised path; and what does not fit is refused, too, if and only if the path has
fewer than 128 characters, or no callback is called. -/
theorem fs_driver_path_iff (d : Dispatch) (op : PathOp) (path : List Char8) (h₀ : 0 ∉ path)
    (driver : Callback (Int16 × ℕ)) (alloc : Bool) :
    (d.AsksWhole path (d.perform op path driver alloc) ↔
      (∀ m, d.vfs.lookup (normalized slash period (path.take 127)) = some m →
        op.has (d.vfs.store m).api = false) ∨
      normalized slash period (path.take 127) = normalized slash period path) ∧
    (d.AsksWhole path (d.perform op path driver alloc) ∧
        d.RefusesLong path (d.perform op path driver alloc) ↔
      path.length < fsMaxPathLen ∨
      ∀ m, d.vfs.lookup (normalized slash period (path.take 127)) = some m →
        op.has (d.vfs.store m).api = false) := by
  rw [← tempPath_eq h₀, ← target_eq_none_iff, asksWhole_iff h₀, ← tempPath_eq h₀]
  refine ⟨Iff.rfl, fun ⟨_, hrefuses⟩ => ?_, fun h => ?_⟩
  · -- A path that does not fit was refused, so that nothing was called.
    by_cases hlen : path.length < fsMaxPathLen
    · exact Or.inl hlen
    · have hasked := (hrefuses (not_lt.mp hlen)).1
      rw [asked_perform] at hasked
      refine Or.inr ?_
      cases ht : d.target op path with
      | none => rfl
      | some c => simp [ht] at hasked
  · rcases h with hlen | ht
    · have htake : path.take 127 = path := by
        apply List.take_of_length_le
        exact Nat.le_of_lt_succ hlen
      refine ⟨Or.inr ?_, fun hle => absurd hlen (not_lt.mpr hle)⟩
      rw [tempPath_eq h₀, htake]
    · refine ⟨Or.inl ht, fun _ => ⟨?_, refused_perform ht driver alloc⟩⟩
      rw [asked_perform, ht]
      rfl

/-- The path `/a/f`, below the mount `/a`. -/
theorem fs_driver_path_short :
    0 ∉ [slash, 97, slash, 102] ∧
      oneMount.AsksWhole [slash, 97, slash, 102]
        (oneMount.perform .removeFile [slash, 97, slash, 102] (fun _ _ => (0, 7)) true) ∧
      oneMount.RefusesLong [slash, 97, slash, 102]
        (oneMount.perform .removeFile [slash, 97, slash, 102] (fun _ _ => (0, 7)) true) := by
  have h₀ : 0 ∉ [slash, 97, slash, 102] := by decide
  refine ⟨h₀, (fs_driver_path_iff _ _ _ h₀ _ _).2.mpr (Or.inl ?_)⟩
  decide

/-- The path `/a/ff...f` of 128 characters: the file whose name has one letter less is removed. -/
theorem not_asksWhole_removed :
    ¬ (oneMount.AsksWhole ([slash, 97, slash] ++ List.replicate 125 102)
        (oneMount.perform .removeFile ([slash, 97, slash] ++ List.replicate 125 102) (fun _ _ => (0, 7))
          true) ∧
      oneMount.RefusesLong ([slash, 97, slash] ++ List.replicate 125 102)
        (oneMount.perform .removeFile ([slash, 97, slash] ++ List.replicate 125 102) (fun _ _ => (0, 7))
          true)) := by
  rintro ⟨⟨calls, hcalls, hall⟩, -⟩
  have hasked : (oneMount.perform .removeFile ([slash, 97, slash] ++ List.replicate 125 102)
      (fun _ _ => (0, 7)) true).1.asked = [(0, slash :: List.replicate 124 102)] := by
    decide +kernel
  have hnormal : normalized slash period ([slash, 97, slash] ++ List.replicate 125 102) =
      [slash, 97, slash] ++ List.replicate 125 102 := by
    decide
  obtain rfl : [(0, slash :: List.replicate 124 102)] = calls := by
    rw [hasked] at hcalls
    exact hcalls.trans (List.append_nil calls)
  obtain ⟨rest, hrest, htrim⟩ := hall _ (List.mem_singleton_self _)
  rw [hnormal] at hrest
  have hsplit : [slash, 97] ++ slash :: List.replicate 125 102 = [slash, 97] ++ rest := hrest
  obtain rfl : slash :: List.replicate 125 102 = rest := List.append_cancel_left hsplit
  have hlength := congrArg List.length htrim
  simp at hlength

end I80k.Kernel

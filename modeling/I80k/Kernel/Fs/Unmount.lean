import I80k.Kernel.Fs.Dispatch
import I80k.Kernel.Fs.Normalize

/-!
# What `fs_unmount` detaches

`fs_unmount` looks for its path the way a file is looked for, by the mounts that are a prefix of it, and drops
a reference of the one that it finds. So a path below a mount unmounts it, too, and a mount that has open
handles loses a reference and stays where it is: it is found for other calls as before, among them another
`fs_unmount`.

## Main definitions

* `Vfs.Gone`: `find_mount` never returns the mount again, whatever operations follow
* `Vfs.Detaches`: `fs_unmount` detaches the mount with the path that it was given, or changes nothing

## Main results

* `Vfs.Listed.gone`: a mount that is off the list never comes back
* `fs_unmount_detaches_iff`: the mount that is found has to have the path, and no reference but one
-/

namespace I80k.Kernel

open StepSystem FieldStack

namespace Vfs

/-- `find_mount` does not return the mount for any path, now and after any operations. -/
def Gone (s : Vfs) (m : MountId) : Prop :=
  ∀ ops s', run Vfs.step s ops = some s' → ∀ path, ((s'.findMount path).map fun r => r.2.1) ≠ some m

/-- `fs_unmount` returns 0, the mount with the normalised path is gone, and the others are on the list as
before and have not changed; or it returns an error and has changed nothing. -/
def Detaches (s : Vfs) (path : List Char8) : Prop :=
  ((s.fsUnmount path).2 = 0 ∧ ∃ m ∈ s.mounts, (s.store m).path = normalized slash period path ∧
    (s.fsUnmount path).1.Gone m ∧ (s.fsUnmount path).1.mounts.erase m = s.mounts.erase m ∧
    ∀ m' ≠ m, (s.fsUnmount path).1.store m' = s.store m') ∨
  (s.fsUnmount path).2 < 0 ∧ (s.fsUnmount path).1 = s

variable {s s' : Vfs} {m : MountId} {path : List Char8}

/-! ## Mounts that are off the list -/

/-- The structures of mounts are new ones: a step brings no old one back. -/
theorem Listed.absent_step (h : Listed s) (hlt : m < s.next) (hm : m ∉ s.mounts) {op : FsOp}
    (hs : s.step op = some s') : m < s'.next ∧ m ∉ s'.mounts := by
  by_cases hop : ∃ path fs device mounted, op = .mount path fs device mounted
  · obtain ⟨path, fs, device, mounted, rfl⟩ := hop
    cases fs with
    | none =>
      obtain rfl : s = s' := by simpa [Vfs.step, Admits, exec, fsMount] using hs
      exact ⟨hlt, hm⟩
    | some api =>
      rcases h.step_mount hs with ⟨-, rfl⟩ | ⟨-, rfl⟩
      · refine ⟨Nat.lt_succ_of_lt hlt, fun hmem => ?_⟩
        rcases List.mem_cons.mp hmem with rfl | hmem
        · exact lt_irrefl _ hlt
        · exact hm hmem
      · exact ⟨hlt, hm⟩
  · simp only [not_exists] at hop
    have hshrinks := h.shrinks_step hop hs
    exact ⟨hshrinks.next ▸ hlt, fun hmem => hm (hshrinks.mounts.subset hmem)⟩

/-- A mount that is off the list never comes back. -/
theorem Listed.gone (h : Listed s) (hlt : m < s.next) (hm : m ∉ s.mounts) : Gone s m := by
  intro ops s' hrun path hfound
  have hinv : Listed s' ∧ m < s'.next ∧ m ∉ s'.mounts := by
    refine run_invariant Vfs.step (P := fun s => Listed s ∧ m < s.next ∧ m ∉ s.mounts) ?_ ⟨h, hlt, hm⟩ hrun
    rintro s op s' ⟨hl, hlt, hm⟩ hs
    exact ⟨(hl.step hs).1, hl.absent_step hlt hm hs⟩
  rw [findMount_mount] at hfound
  exact hinv.2.2 (mem_of_lookup hfound)

/-! ## The mount that is found -/

theorem fsUnmount_none (hm : s.lookup (tempPath path) = none) : s.fsUnmount path = (s, errNoEntry) := by
  simp [fsUnmount, findMount, hm]

theorem fsUnmount_result (hm : s.lookup (tempPath path) = some m) : (s.fsUnmount path).2 = 0 := by
  simp [fsUnmount, findMount, hm]

/-- What `fs_unmount` leaves: a reference less, and with the last one the mount is off the list. -/
theorem Listed.fsUnmount_spec (h : Listed s) (hm : s.lookup (tempPath path) = some m) :
    ((s.fsUnmount path).1.store m).ref = (s.store m).ref - 1 ∧
      (∀ m' ≠ m, (s.fsUnmount path).1.store m' = s.store m') ∧
      (s.fsUnmount path).1.mounts = if (s.store m).ref = 1 then s.mounts.erase m else s.mounts := by
  have hdrop : (((s.modify m fun mount => { mount with unmounted := true }).dropRef m).store m).ref =
      (s.store m).ref - 1 := by
    simp [dropRef, modify]
  have hothers : ∀ m' ≠ m,
      ((s.modify m fun mount => { mount with unmounted := true }).dropRef m).store m' = s.store m' := by
    intro m' hne
    simp [dropRef, modify, hne]
  have hzero : (s.store m).ref - 1 = 0 ↔ (s.store m).ref = 1 := by omega
  rw [h.referenced.fsUnmount_eq hm, putMount]
  by_cases hone : (s.store m).ref = 1
  · rw [if_pos (hdrop.trans (hzero.mpr hone)), if_pos hone]
    exact ⟨hdrop, hothers, rfl⟩
  · rw [if_neg (fun h₀ => hone (hzero.mp (hdrop.symm.trans h₀))), if_neg hone]
    exact ⟨hdrop, hothers, rfl⟩

/-- A mount that keeps a reference is found for the same path. -/
theorem Listed.lookup_fsUnmount (h : Listed s) (hm : s.lookup (tempPath path) = some m)
    (href : (s.store m).ref ≠ 1) : (s.fsUnmount path).1.lookup (tempPath path) = some m := by
  have hmounts := (h.fsUnmount_spec hm).2.2
  rw [if_neg href] at hmounts
  have hpath := (h.shrinks_fsUnmount path).path
  rw [← hm, lookup, lookup, hmounts]
  simp only [hpath]

end Vfs

/-- **What `fs_unmount` detaches, exactly.** For every mount table that is reached, with any open handles, and
every path: `fs_unmount` detaches the mount with that path, and no other, or fails and changes nothing, if
and only if the mount found for the first 127 characters of the path has the whole normalised path for its
own, and has one reference only; or if there is none. -/
theorem fs_unmount_detaches_iff (s : Vfs) (hs : s.Reachable) (path : List Char8) (h₀ : 0 ∉ path) :
    s.Detaches path ↔ ∀ m, s.lookup (normalized slash period (path.take 127)) = some m →
      (s.store m).path = normalized slash period path ∧ (s.store m).ref = 1 := by
  have hl := hs.listed
  rw [← tempPath_eq h₀]
  cases hm : s.lookup (tempPath path) with
  | none =>
    have herr : errNoEntry < 0 := by decide
    rw [Vfs.Detaches, Vfs.fsUnmount_none hm]
    exact iff_of_true (Or.inr ⟨herr, rfl⟩) fun m h => absurd h (by simp)
  | some m =>
    obtain ⟨href, hothers, hmounts⟩ := hl.fsUnmount_spec hm
    have hres := Vfs.fsUnmount_result hm
    have hmem := Vfs.mem_of_lookup hm
    constructor
    · rintro (⟨-, m₀, -, hpath, hgone, -, hrest⟩ | ⟨herr, -⟩) m' hm'
      · obtain rfl := Option.some.inj hm'
        -- The mount that is found loses a reference, so it is none of the others.
        have heq : m = m₀ := by
          by_contra hne
          rw [hrest m hne] at href
          omega
        subst heq
        refine ⟨hpath, ?_⟩
        by_contra hone
        refine hgone [] _ rfl (tempPath path) ?_
        rw [Vfs.findMount_mount, hl.lookup_fsUnmount hm hone]
      · rw [hres] at herr
        exact absurd herr (by decide)
    · intro h
      obtain ⟨hpath, hone⟩ := h m rfl
      rw [if_pos hone] at hmounts
      have hshrinks := hl.shrinks_fsUnmount path
      have habsent : m ∉ (s.fsUnmount path).1.mounts := by
        rw [hmounts]
        exact hl.nodup.not_mem_erase
      refine Or.inl ⟨hres, m, hmem, hpath, ?_, ?_, hothers⟩
      · exact (hl.shrinks hshrinks).gone (hshrinks.next ▸ hl.lt m hmem) habsent
      · rw [List.erase_of_not_mem habsent, hmounts]

open Dispatch

/-- The path of the mount `/a`. -/
theorem fs_unmount_detaches_one :
    oneMount.vfs.Reachable ∧ 0 ∉ [slash, 97] ∧ oneMount.vfs.Detaches [slash, 97] := by
  have h₀ : 0 ∉ [slash, 97] := by decide
  have hnormal : normalized slash period [slash, 97] = [slash, 97] := by decide
  refine ⟨oneMount_reachable, h₀, (fs_unmount_detaches_iff _ oneMount_reachable _ h₀).mpr fun m _ => ?_⟩
  exact ⟨hnormal.symm, rfl⟩

/-- The path `/a/b`: the mount `/a` is unmounted. -/
theorem not_detaches_below : oneMount.vfs.Reachable ∧ ¬ oneMount.vfs.Detaches [slash, 97, slash, 98] := by
  refine ⟨oneMount_reachable, ?_⟩
  have hnormal : normalized slash period [slash, 97, slash, 98] = [slash, 97, slash, 98] := by decide
  rintro (⟨-, m, -, hpath, -⟩ | ⟨herr, -⟩)
  · have hmount : [slash, 97] = [slash, 97, slash, 98] := hpath.trans hnormal
    exact absurd hmount (by decide)
  · have hres : (oneMount.vfs.fsUnmount [slash, 97, slash, 98]).2 = 0 := by decide
    rw [hres] at herr
    exact absurd herr (by decide)

end I80k.Kernel

import I80k.Kernel.Fs.MountRefs

/-!
# Which mount a path resolves to

`find_mount` takes the first mount of the list whose path is a prefix of the path, by components. New mounts
are put in front. A mount is refused below one that is there; above one that is there it is accepted, and
then it hides the one below, which should have been found.

## Main definitions

* `ComponentPrefix`: a path is another one, or a directory on it
* `Vfs.Resolves`, `Vfs.MostSpecific`: the mount with the longest path on a path; paths resolve to theirs
* `Vfs.Listed`: the list of mounts, where no path is a prefix of one in front of it
* `Vfs.Unnested`: no path is a prefix of one behind it, either
* `Vfs.MountsBeside`: the operation does not mount above a mount that is there

## Main results

* `Vfs.Listed.mostSpecific_iff`: paths resolve to the most specific mount if and only if no two mounts are
  nested
* `find_mount_most_specific_iff`: in every run, as long as no mount is made above another one
-/

namespace I80k.Kernel

open StepSystem

/-! ## Prefixes by components -/

/-- The path `a` is the path `b`, or is followed by a separator there. -/
def ComponentPrefix (a b : List Char8) : Prop := b = a ∨ ∃ rest, b = a ++ slash :: rest

theorem ComponentPrefix.refl (a : List Char8) : ComponentPrefix a a := Or.inl rfl

theorem ComponentPrefix.length_le {a b : List Char8} (h : ComponentPrefix a b) : a.length ≤ b.length := by
  rcases h with rfl | ⟨rest, rfl⟩
  · exact le_rfl
  · simp

/-- A prefix with something behind it is a prefix by components if a separator comes first. -/
theorem componentPrefix_append_cons {a rest : List Char8} {c : Char8} :
    ComponentPrefix a (a ++ c :: rest) ↔ c = slash := by
  constructor
  · rintro (h | ⟨rest', h⟩)
    · simp at h
    · exact (List.cons.inj (List.append_cancel_left h)).1
  · rintro rfl
    exact Or.inr ⟨rest, rfl⟩

/-- Two prefixes of one path are nested. -/
theorem ComponentPrefix.nested {a b c : List Char8} (ha : ComponentPrefix a c) (hb : ComponentPrefix b c) :
    ComponentPrefix a b ∨ ComponentPrefix b a := by
  rcases ha with rfl | ⟨resta, rfl⟩
  · exact Or.inr hb
  · rcases hb with rfl | ⟨restb, hb⟩
    · exact Or.inl (Or.inr ⟨resta, rfl⟩)
    · -- The shorter one is followed by a separator in the longer one, too.
      rcases List.append_eq_append_iff.mp hb with ⟨mid, rfl, hmid⟩ | ⟨mid, rfl, hmid⟩
      · cases mid with
        | nil => exact Or.inl (Or.inl (by simp))
        | cons x xs => exact Or.inl (componentPrefix_append_cons.mpr (List.cons.inj hmid).1.symm)
      · cases mid with
        | nil => exact Or.inl (Or.inl (by simp))
        | cons x xs => exact Or.inr (componentPrefix_append_cons.mpr (List.cons.inj hmid).1.symm)

/-- The first element with a property is not behind another one. -/
theorem find?_ne_of_sublist {α : Type} {l : List α} {a b : α} {q : α → Bool} (hnd : l.Nodup)
    (hsub : [a, b].Sublist l) (ha : q a) : l.find? q ≠ some b := by
  induction l with
  | nil => simp at hsub
  | cons x l ih =>
    obtain ⟨hx, hnd⟩ := List.nodup_cons.mp hnd
    rw [List.find?_cons]
    rcases List.sublist_cons_iff.mp hsub with hrest | ⟨r, hr, hrest⟩
    · -- Both are in the rest.
      split
      · rintro ⟨rfl⟩
        exact hx (hrest.subset (List.mem_cons_of_mem a (List.mem_singleton_self _)))
      · exact ih hnd hrest
    · obtain ⟨rfl, rfl⟩ := List.cons.inj hr
      rw [ha]
      rintro ⟨rfl⟩
      exact hx (hrest.subset (by simp))

/-- What `find_mount` tests, on a string without the terminator. -/
theorem matchesMount_iff {path mountPath : List Char8} (hpath : 0 ∉ path) :
    MatchesMount path mountPath ↔ ComponentPrefix mountPath path := by
  unfold MatchesMount
  constructor
  · rintro ⟨-, htake, hnext⟩
    -- The path is the one of the mount, and a rest that is empty or begins with a slash.
    have hsplit : path = mountPath ++ path.drop mountPath.length := by
      conv_lhs => rw [← List.take_append_drop mountPath.length path, htake]
    generalize path.drop mountPath.length = rest at hsplit
    subst hsplit
    cases rest with
    | nil => exact Or.inl (by simp)
    | cons c rest =>
      have hc : c = slash ∨ c = 0 := by simpa [List.getD] using hnext
      have hzero : c ≠ 0 := by
        rintro rfl
        simp at hpath
      exact componentPrefix_append_cons.mpr (hc.resolve_right hzero)
  · rintro (rfl | ⟨rest, rfl⟩)
    · simp [List.getD]
    · simp [List.getD]

/-- A normalised path is a string. -/
theorem zero_notMem_tempPath (path : List Char8) : (0 : Char8) ∉ tempPath path := by
  intro hmem
  unfold tempPath fsNormalizePath at hmem
  cases hloop : Norm.loop (4 * (strlcpy path fsMaxPathLen).length + 8)
      ⟨strlcpy path fsMaxPathLen ++ [0], .initial, 0, 0⟩ with
  | none => simp [hloop] at hmem
  | some n =>
    rw [hloop] at hmem
    have := List.mem_takeWhile_imp hmem
    simp at this

namespace Vfs

/-- The mount that a path should resolve to: the only one with the longest path on it, if there is any. -/
def Resolves (s : Vfs) (path : List Char8) : Option MountId → Prop
  | none => ∀ m ∈ s.mounts, ¬ ComponentPrefix (s.store m).path path
  | some m => m ∈ s.mounts ∧ ComponentPrefix (s.store m).path path ∧
    ∀ m' ∈ s.mounts, m' ≠ m → ComponentPrefix (s.store m').path path →
      (s.store m').path.length < (s.store m).path.length

/-- `find_mount` returns it for every absolute path, of any length and normalised or not. -/
def MostSpecific (s : Vfs) : Prop :=
  ∀ path : List Char8, 0 ∉ path → path.head? = some slash →
    s.Resolves path ((s.findMount path).map fun r => r.2.1)

/-- The mounts of the list: their paths are normalised, and none is a prefix of one in front of it. -/
structure Listed (s : Vfs) : Prop where
  lt : ∀ m ∈ s.mounts, m < s.next
  nodup : s.mounts.Nodup
  ref : ∀ m ∈ s.mounts, 0 < (s.store m).ref
  path : ∀ m ∈ s.mounts, ∃ p, (s.store m).path = tempPath p ∧ (tempPath p).head? = some slash
  order : s.mounts.Pairwise fun m m' => ¬ ComponentPrefix (s.store m').path (s.store m).path

/-- No path of a mount is a prefix of one behind it. -/
def Unnested (s : Vfs) : Prop :=
  s.mounts.Pairwise fun m m' => ¬ ComponentPrefix (s.store m).path (s.store m').path

/-- A mount that is not refused: the device is there, the file system accepts it, and the path is an
absolute one, with no mount on it. -/
def Accepted (s : Vfs) (path : List Char8) (device : Option Bool) (mounted : Int16) : Prop :=
  device ≠ some false ∧ ¬ mounted < 0 ∧ (tempPath path).head? = some slash ∧
    ∀ m ∈ s.mounts, ¬ ComponentPrefix (s.store m).path (tempPath path)

/-- A mount that is not refused is not above a mount that is there. -/
def MountsBeside (s : Vfs) : FsOp → Prop
  | .mount path (some _) device mounted => s.Accepted path device mounted →
    ∀ m ∈ s.mounts, ¬ ComponentPrefix (tempPath path) (s.store m).path
  | _ => True

variable {s s' : Vfs} {m : MountId}

/-! ## Resolution -/

theorem findMount_mount (path : List Char8) :
    ((s.findMount path).map fun r => r.2.1) = s.lookup path := by
  cases h : s.lookup path <;> simp [findMount, h]

/-- The first mount of the list on the path. -/
theorem lookup_eq_find {path : List Char8} (habs : path.head? = some slash) :
    s.lookup path = s.mounts.find? fun m => MatchesMount path (s.store m).path := by
  rw [lookup, if_pos habs]

/-- Without nested mounts there is at most one mount on a path, wherever it is on the list. -/
theorem Listed.eq_of_unnested (h : Listed s) (hu : Unnested s) {m' : MountId} {path : List Char8}
    (hm : m ∈ s.mounts) (hm' : m' ∈ s.mounts) (hpre : ComponentPrefix (s.store m).path path)
    (hpre' : ComponentPrefix (s.store m').path path) : m' = m := by
  by_contra hne
  have hboth : s.mounts.Pairwise fun m m' => ¬ ComponentPrefix (s.store m).path (s.store m').path ∧
      ¬ ComponentPrefix (s.store m').path (s.store m).path := hu.and h.order
  have hsymm : Std.Symm fun m m' : MountId => ¬ ComponentPrefix (s.store m).path (s.store m').path ∧
      ¬ ComponentPrefix (s.store m').path (s.store m).path := ⟨fun _ _ hp => hp.symm⟩
  have hnot := hboth.forall hm hm' (Ne.symm hne)
  exact (hpre.nested hpre').elim hnot.1 hnot.2

theorem Listed.mostSpecific_of_unnested (h : Listed s) (hu : Unnested s) : MostSpecific s := by
  intro path hzero habs
  rw [findMount_mount, lookup_eq_find habs]
  cases hfind : s.mounts.find? fun m => MatchesMount path (s.store m).path with
  | none =>
    intro m hm hpre
    have hno := List.find?_eq_none.mp hfind m hm
    simp only [decide_eq_true_eq] at hno
    exact hno ((matchesMount_iff hzero).mpr hpre)
  | some m =>
    have hm := List.mem_of_find?_eq_some hfind
    have hpre : ComponentPrefix (s.store m).path path := by
      have := List.find?_some hfind
      rw [decide_eq_true_eq] at this
      exact (matchesMount_iff hzero).mp this
    -- Another mount on the path would be above this one, or below.
    refine ⟨hm, hpre, fun m' hm' hne hpre' => ?_⟩
    exact absurd (h.eq_of_unnested hu hm hm' hpre hpre') hne

/-- A mount behind one whose path is a prefix of its own is not found for its own path. -/
theorem Listed.unnested_of_mostSpecific (h : Listed s) (hs : MostSpecific s) : Unnested s := by
  apply List.pairwise_iff_forall_sublist.mpr
  intro m m' hsub hpre
  have hm' : m' ∈ s.mounts := hsub.subset (by simp)
  obtain ⟨p, hp, habs⟩ := h.path m' hm'
  have hzero := zero_notMem_tempPath p
  have hmatch : MatchesMount (tempPath p) (s.store m).path := (matchesMount_iff hzero).mpr (hp ▸ hpre)
  have hspec := hs (tempPath p) hzero habs
  rw [findMount_mount, lookup_eq_find habs] at hspec
  cases hfind : s.mounts.find? fun m => MatchesMount (tempPath p) (s.store m).path with
  | none =>
    rw [hfind] at hspec
    exact hspec m (hsub.subset (by simp)) (hp ▸ hpre)
  | some m₀ =>
    have hne : m' ≠ m₀ := by
      rintro rfl
      exact find?_ne_of_sublist h.nodup hsub (decide_eq_true hmatch) hfind
    rw [hfind] at hspec
    obtain ⟨-, hpre₀, hlong⟩ := hspec
    -- The path of `m'` is the whole path, and nothing on it is longer.
    have hlt := hlong m' hm' hne (Or.inl hp.symm)
    have hle := hpre₀.length_le
    rw [← hp] at hle
    omega

theorem Listed.mostSpecific_iff (h : Listed s) : MostSpecific s ↔ Unnested s :=
  ⟨h.unnested_of_mostSpecific, h.mostSpecific_of_unnested⟩

/-! ## Operations that make no mount -/

/-- The list of `s'` is what is left of the one of `s`, and the mounts have their paths. -/
structure Shrinks (s s' : Vfs) : Prop where
  next : s'.next = s.next
  mounts : s'.mounts.Sublist s.mounts
  path : ∀ m, (s'.store m).path = (s.store m).path
  ref : ∀ m ∈ s'.mounts, 0 < (s'.store m).ref

theorem Listed.shrinks (h : Listed s) (hs : Shrinks s s') : Listed s' where
  lt m hm := hs.next ▸ h.lt m (hs.mounts.subset hm)
  nodup := h.nodup.sublist hs.mounts
  ref := hs.ref
  path m hm := by
    rw [hs.path]
    exact h.path m (hs.mounts.subset hm)
  order := by
    simp only [hs.path]
    exact h.order.sublist hs.mounts

theorem Unnested.shrinks (h : Unnested s) (hs : Shrinks s s') : Unnested s' := by
  unfold Unnested
  simp only [hs.path]
  exact List.Pairwise.sublist hs.mounts h

theorem Listed.shrinks_refl (h : Listed s) : Shrinks s s := ⟨rfl, List.Sublist.refl _, fun _ => rfl, h.ref⟩

theorem Listed.referenced (h : Listed s) : Referenced s := fun m hm => (h.ref m hm).ne'

/-- Dropping a reference. -/
theorem Listed.shrinks_putMount (h : Listed s) (m : MountId) : Shrinks s (s.putMount m) := by
  have hpath : ∀ m', ((s.dropRef m).store m').path = (s.store m').path := by
    intro m'
    by_cases hne : m' = m
    · simp [dropRef, modify, hne]
    · simp [dropRef, modify, hne]
  have hself : ((s.dropRef m).store m).ref = (s.store m).ref - 1 := by simp [dropRef, modify]
  unfold putMount
  -- The mount goes away with its last reference, and the others keep theirs.
  by_cases hzero : ((s.dropRef m).store m).ref = 0
  · rw [if_pos hzero]
    refine ⟨rfl, List.erase_sublist, hpath, fun m' hm' => ?_⟩
    obtain ⟨hne, hmem⟩ := h.nodup.mem_erase_iff.mp hm'
    have := h.ref m' hmem
    rwa [← store_dropRef_of_ne hne] at this
  · rw [if_neg hzero]
    refine ⟨rfl, List.Sublist.refl _, hpath, fun m' hm' => ?_⟩
    have hpos := h.ref m' hm'
    by_cases hne : m' = m
    · subst hne
      rw [hself] at hzero ⊢
      omega
    · rwa [store_dropRef_of_ne hne]

/-- A change of the store that keeps the paths and the references of the mounts on the list. -/
theorem Listed.shrinks_modify (h : Listed s) {f : FsMount → FsMount} (hpath : ∀ x, (f x).path = x.path)
    (href : ∀ x, x.ref ≤ (f x).ref) : Shrinks s (s.modify m f) := by
  refine ⟨rfl, List.Sublist.refl _, fun m' => ?_, fun m' hm' => ?_⟩
  · by_cases hne : m' = m
    · subst hne
      simpa [modify] using hpath _
    · simp [modify, hne]
  · have hpos := h.ref m' hm'
    by_cases hne : m' = m
    · subst hne
      simpa [modify] using hpos.trans_le (href _)
    · simpa [modify, hne] using hpos

theorem Shrinks.trans {t : Vfs} (h : Shrinks s s') (h' : Shrinks s' t) : Shrinks s t :=
  ⟨h'.next.trans h.next, h'.mounts.trans h.mounts, fun m => (h'.path m).trans (h.path m), h'.ref⟩

/-- The handles do not matter. -/
theorem Shrinks.handles (h : Shrinks s s') (handles : List Handle) : Shrinks s { s' with handles } :=
  ⟨h.next, h.mounts, h.path, h.ref⟩

theorem Listed.shrinks_effect (h : Listed s) (he : Effect s s') (hnext : s'.next = s.next) :
    Shrinks s s' := by
  cases he with
  | none => exact h.shrinks_refl
  | mounted path api => exact absurd hnext (Nat.succ_ne_self _)
  | opened hd hm =>
    have hadd : Shrinks s (s.addRef hd.mount) :=
      h.shrinks_modify (fun _ => rfl) fun x => by simp
    exact hadd.handles _
  | closed hd hh => exact (h.shrinks_putMount hd.mount).handles _

theorem Listed.shrinks_fsUnmount (h : Listed s) (path : List Char8) : Shrinks s (s.fsUnmount path).1 := by
  cases hm : s.lookup (tempPath path) with
  | none => simpa [fsUnmount, findMount, hm] using h.shrinks_refl
  | some m =>
    have hmark : Shrinks s (s.modify m fun mount => { mount with unmounted := true }) :=
      h.shrinks_modify (fun _ => rfl) fun _ => le_rfl
    rw [h.referenced.fsUnmount_eq hm]
    exact hmark.trans ((h.shrinks hmark).shrinks_putMount m)

@[simp] theorem next_putMount : (s.putMount m).next = s.next := by
  simp only [putMount]
  split_ifs
  · rfl
  · rfl

@[simp] theorem next_addRef : (s.addRef m).next = s.next := rfl

@[simp] theorem next_addHandle (h : Handle) : (s.addHandle h).next = s.next := rfl

@[simp] theorem next_release (h : Handle) : (s.release h).next = s.next := next_putMount

theorem next_passThrough (path : List Char8) (has : FsApi → Bool) (driver : Callback Int16) :
    (s.passThrough path has driver).1.next = s.next := by
  cases hm : s.lookup path with
  | none => simp [passThrough, findMount, hm]
  | some m =>
    simp only [passThrough, findMount, hm, Option.map_some]
    split_ifs
    · simp
    · simp

/-- Only `fs_mount` makes a mount. -/
theorem next_step {op : FsOp} (hop : ∀ path fs device mounted, op ≠ .mount path fs device mounted)
    (hu : ∀ path, op ≠ .unmount path) (hs : s.step op = some s') : s'.next = s.next := by
  rw [step] at hs
  split_ifs at hs
  -- Only a mount allocates; the other functions modify mounts that are there.
  cases op with
  | mount path fs device mounted => exact absurd rfl (hop path fs device mounted)
  | unmount path => exact absurd rfl (hu path)
  | openFile path driver =>
    cases hm : s.lookup (tempPath path) with
    | none =>
      simp [exec, fsOpenFile, findMount, hm] at hs
      rw [hs]
    | some m =>
      simp only [exec, fsOpenFile, findMount, hm, Option.map_some, not_true_eq_false, if_false] at hs
      split_ifs at hs
      · obtain rfl := Option.some.inj hs
        simp
      · obtain rfl := Option.some.inj hs
        simp
  | createFile path driver =>
    obtain rfl := Option.some.inj hs
    cases hm : s.lookup (tempPath path) with
    | none => simp [fsCreateFile, findMount, hm]
    | some m =>
      simp only [fsCreateFile, findMount, hm, Option.map_some]
      split_ifs <;> simp
  | closeFile hd err =>
    obtain rfl := Option.some.inj hs
    unfold fsCloseFile
    split_ifs <;> simp
  | openDir path driver =>
    obtain rfl := Option.some.inj hs
    cases hm : s.lookup (tempPath path) with
    | none => simp [fsOpenDir, findMount, hm]
    | some m =>
      simp only [fsOpenDir, findMount, hm, Option.map_some]
      split_ifs <;> simp
  | closeDir hd err =>
    obtain rfl := Option.some.inj hs
    unfold fsCloseDir
    split_ifs <;> simp
  | removeFile path driver =>
    obtain rfl := Option.some.inj hs
    exact next_passThrough _ _ _
  | makeDir path driver =>
    obtain rfl := Option.some.inj hs
    exact next_passThrough _ _ _
  | statFs mountpoint stat driver =>
    obtain rfl := Option.some.inj hs
    unfold fsStatFs
    split_ifs
    · exact next_passThrough _ _ _
    · rfl

/-- An operation that makes no mount leaves a part of the list. -/
theorem Listed.shrinks_step (h : Listed s) {op : FsOp}
    (hop : ∀ path fs device mounted, op ≠ .mount path fs device mounted) (hs : s.step op = some s') :
    Shrinks s s' := by
  by_cases hu : ∃ path, op = .unmount path
  · obtain ⟨path, rfl⟩ := hu
    obtain rfl : (s.fsUnmount path).1 = s' := by simpa [step, Admits, exec] using hs
    exact h.shrinks_fsUnmount path
  · have hu := not_exists.mp hu
    exact h.shrinks_effect (h.referenced.effect hu hs) (next_step hop hu hs)

/-! ## Mounting -/

/-- The state with a new mount. -/
def added (s : Vfs) (path : List Char8) (api : FsApi) : Vfs :=
  { s with
    store := Function.update s.store s.next ⟨path, 1, api, false⟩
    next := s.next + 1
    mounts := s.next :: s.mounts }

/-- No mount is found for a path if no mount is on it. -/
theorem lookup_eq_none_iff {p : List Char8} (habs : (tempPath p).head? = some slash) :
    s.lookup (tempPath p) = none ↔ ∀ m ∈ s.mounts, ¬ ComponentPrefix (s.store m).path (tempPath p) := by
  rw [lookup_eq_find habs, List.find?_eq_none]
  refine forall₂_congr fun m _ => ?_
  rw [decide_eq_true_eq, matchesMount_iff (zero_notMem_tempPath p)]

theorem Listed.mount_accepted {path : List Char8} {device : Option Bool} {mounted : Int16}
    (ha : s.Accepted path device mounted) (api : FsApi) :
    (s.mount path device api mounted true true).1 = s.added (tempPath path) api := by
  obtain ⟨hdev, hres, habs, hnone⟩ := ha
  have hlookup := (lookup_eq_none_iff habs).mpr hnone
  simp [mount, findMount, hlookup, habs, hdev, hres, added]

theorem Listed.mount_refused (h : Listed s) {path : List Char8} {device : Option Bool} {mounted : Int16}
    (ha : ¬ s.Accepted path device mounted) (api : FsApi) :
    (s.mount path device api mounted true true).1 = s := by
  -- The tests in the order of the function: the path, what is mounted there, the device, the driver.
  by_cases habs : (tempPath path).head? = some slash
  · cases hm : s.lookup (tempPath path) with
    | none =>
      have hnone := (lookup_eq_none_iff habs).mp hm
      simp only [mount, findMount, hm, habs, Option.map_none]
      by_cases hdev : device = some false
      · simp [hdev]
      · have hres : mounted < 0 := by
          by_contra hres
          exact ha ⟨hdev, hres, habs, hnone⟩
        simp [hdev, hres]
    | some m => simp [mount, findMount, hm, habs, h.referenced.putMount_addRef hm]
  · simp [mount, habs]

theorem store_added_of_mem (h : Listed s) {path : List Char8} {api : FsApi} (hm : m ∈ s.mounts) :
    (s.added path api).store m = s.store m :=
  Function.update_of_ne (h.lt m hm).ne _ _

theorem path_added_next {path : List Char8} {api : FsApi} :
    ((s.added path api).store s.next).path = path := by
  simp [added]

/-- The new mount is in front, and no mount behind it is on its path. -/
theorem Listed.added (h : Listed s) {p : List Char8} (habs : (tempPath p).head? = some slash)
    (hnone : ∀ m ∈ s.mounts, ¬ ComponentPrefix (s.store m).path (tempPath p)) (api : FsApi) :
    Listed (s.added (tempPath p) api) where
  lt m hm := by
    rcases List.mem_cons.mp hm with rfl | hm
    · exact Nat.lt_succ_self _
    · exact Nat.lt_succ_of_lt (h.lt m hm)
  nodup := List.nodup_cons.mpr ⟨fun hm => lt_irrefl _ (h.lt _ hm), h.nodup⟩
  ref m hm := by
    rcases List.mem_cons.mp hm with rfl | hm
    · simp [Vfs.added]
    · rw [store_added_of_mem h hm]
      exact h.ref m hm
  path m hm := by
    rcases List.mem_cons.mp hm with rfl | hm
    · exact ⟨p, path_added_next, habs⟩
    · rw [store_added_of_mem h hm]
      exact h.path m hm
  order := by
    refine List.pairwise_cons.mpr ⟨fun m hm => ?_, ?_⟩
    · rw [store_added_of_mem h hm, path_added_next]
      exact hnone m hm
    · refine h.order.imp_of_mem fun hm hm' hno => ?_
      rwa [store_added_of_mem h hm, store_added_of_mem h hm']

theorem Listed.unnested_added (h : Listed s) {path : List Char8} {api : FsApi} :
    Unnested (s.added path api) ↔
      (∀ m ∈ s.mounts, ¬ ComponentPrefix path (s.store m).path) ∧ Unnested s := by
  have hrest : s.mounts.Pairwise (fun m m' => ¬ ComponentPrefix ((s.added path api).store m).path
      ((s.added path api).store m').path) ↔ Unnested s := by
    refine ⟨fun hp => ?_, fun hp => ?_⟩
    · refine hp.imp_of_mem fun hm hm' hno => ?_
      rwa [store_added_of_mem h hm, store_added_of_mem h hm'] at hno
    · refine List.Pairwise.imp_of_mem (fun hm hm' hno => ?_) hp
      rwa [store_added_of_mem h hm, store_added_of_mem h hm']
  rw [← hrest]
  refine List.pairwise_cons.trans (and_congr_left fun _ => ?_)
  refine forall₂_congr fun m hm => ?_
  rw [store_added_of_mem h hm, path_added_next]

/-- A mount of a file system is made, or refused. -/
theorem Listed.step_mount (h : Listed s) {path : List Char8} {api : FsApi} {device : Option Bool}
    {mounted : Int16} (hs : s.step (.mount path (some api) device mounted) = some s') :
    s.Accepted path device mounted ∧ s' = s.added (tempPath path) api ∨
      ¬ s.Accepted path device mounted ∧ s' = s := by
  obtain rfl : (s.mount path device api mounted true true).1 = s' := by
    simpa [step, Admits, exec, fsMount] using hs
  by_cases ha : s.Accepted path device mounted
  · exact Or.inl ⟨ha, mount_accepted ha api⟩
  · exact Or.inr ⟨ha, h.mount_refused ha api⟩

/-- A step keeps the list. It keeps mounts from being nested if it meets the condition. -/
theorem Listed.step (h : Listed s) {op : FsOp} (hs : s.step op = some s') :
    Listed s' ∧ (Unnested s → s.MountsBeside op → Unnested s') := by
  by_cases hop : ∃ path fs device mounted, op = .mount path fs device mounted
  · obtain ⟨path, fs, device, mounted, rfl⟩ := hop
    cases fs with
    | none =>
      obtain rfl : s = s' := by simpa [Vfs.step, Admits, exec, fsMount] using hs
      exact ⟨h, fun hu _ => hu⟩
    | some api =>
      rcases h.step_mount hs with ⟨ha, rfl⟩ | ⟨-, rfl⟩
      · exact ⟨h.added ha.2.2.1 ha.2.2.2 api, fun hu hb => h.unnested_added.mpr ⟨hb ha, hu⟩⟩
      · exact ⟨h, fun hu _ => hu⟩
  · simp only [not_exists] at hop
    have hshrinks := h.shrinks_step hop hs
    exact ⟨h.shrinks hshrinks, fun hu _ => hu.shrinks hshrinks⟩

/-- A step that does not meet the condition makes a mount that hides another one. -/
theorem Listed.step_above (h : Listed s) {op : FsOp} (hb : ¬ s.MountsBeside op) :
    ∃ s', s.step op = some s' ∧ Listed s' ∧ ¬ Unnested s' := by
  cases op with
  | mount path fs device mounted =>
    cases fs with
    | none => exact absurd trivial hb
    | some api =>
      obtain ⟨ha, m, hm, hpre⟩ : s.Accepted path device mounted ∧
          ∃ m ∈ s.mounts, ComponentPrefix (tempPath path) (s.store m).path := by
        simpa [MountsBeside] using hb
      have hstep : s.step (.mount path (some api) device mounted) =
          some (s.added (tempPath path) api) := by
        simp [Vfs.step, Admits, exec, fsMount, mount_accepted ha api]
      -- The new mount comes before the one below it.
      refine ⟨_, hstep, h.added ha.2.2.1 ha.2.2.2 api, fun hu => ?_⟩
      exact (h.unnested_added.mp hu).1 m hm hpre
  | _ => exact absurd trivial hb

end Vfs

/-- **Which mount a path resolves to, exactly.** In every run of the operations from no mounts: in all of
its states `find_mount` returns, for every absolute path, the mount with the longest path
on it, and nothing if there is none, if and only if no mount of the run is made above a mount that is there
at the time. -/
theorem find_mount_most_specific_iff (store : MountId → FsMount) (ops : List FsOp) :
    Always Vfs.step Vfs.MostSpecific (Vfs.init store) ops ↔
      Steps Vfs.step Vfs.MountsBeside (Vfs.init store) ops := by
  have hinit : Vfs.Listed (Vfs.init store) := by
    constructor <;> simp [Vfs.init]
  refine always_iff_steps (I := Vfs.Listed) (fun s op s' hl hp hb hs => ?_) (fun s op hl hp hb => ?_)
    hinit ?_
  · obtain ⟨hl', hkeep⟩ := hl.step hs
    exact ⟨hl', hl'.mostSpecific_iff.mpr (hkeep (hl.mostSpecific_iff.mp hp) hb)⟩
  · obtain ⟨s', hs, hl', hu⟩ := hl.step_above hb
    exact ⟨s', hs, mt hl'.mostSpecific_iff.mp hu⟩
  · exact hinit.mostSpecific_of_unnested List.Pairwise.nil

/-- Mounts at `/a/b` and then at `/a`: the path `/a/b` resolves to the second one. -/
theorem not_always_mostSpecific_nested :
    ¬ Always Vfs.step Vfs.MostSpecific
      (Vfs.init fun _ => ⟨[], 0, ⟨false, false, false, false, false, false⟩, false⟩)
      [.mount [47, 97, 47, 98] (some ⟨false, false, false, false, false, false⟩) none 0,
        .mount [47, 97] (some ⟨false, false, false, false, false, false⟩) none 0] := by
  intro h
  have hrun : (run Vfs.step
      (Vfs.init fun _ => ⟨[], 0, ⟨false, false, false, false, false, false⟩, false⟩)
      [.mount [47, 97, 47, 98] (some ⟨false, false, false, false, false, false⟩) none 0,
        .mount [47, 97] (some ⟨false, false, false, false, false, false⟩) none 0]).map
      (fun s => (s.mounts, (s.store 0).path, (s.store 1).path, s.lookup (tempPath [47, 97, 47, 98]))) =
      some ([1, 0], [47, 97, 47, 98], [47, 97], some 1) := by
    decide
  have hpath : tempPath [47, 97, 47, 98] = [47, 97, 47, 98] := by decide
  obtain ⟨s, hs, he⟩ := Option.map_eq_some_iff.mp hrun
  simp only [Prod.mk.injEq] at he
  obtain ⟨hmounts, hzero, hone, hlookup⟩ := he
  have hspec := h.last hs [47, 97, 47, 98] (by decide) rfl
  rw [hpath] at hlookup
  rw [Vfs.findMount_mount, hlookup] at hspec
  have hlt := hspec.2.2 0 (by simp [hmounts]) (by decide) (Or.inl hzero.symm)
  simp [hzero, hone] at hlt

end I80k.Kernel

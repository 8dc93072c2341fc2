import I80k.Kernel.Ext2.Lookup

/-!
# The end of a walk

`ext2_walk` has a loop over the components of a path, a jump back after each link that it has resolved, and
a recursion on the text of the link. The recursion is at most four levels deep, on texts of less than 512
characters. A walk that succeeds has left `*inum` at an inode that it has loaded, and that is no link: so
the jump back is taken once for a component at most, and each turn of the loop passes a separator.

## Main definitions

* `Ext2.Object`: the number of an inode that can be loaded and is no link
* `Ext2.walkFuel`: the turns that a walk needs, over a path of a given length
* `Ext2.walkLookups`, `Ext2.ext2WalkLookups`: the calls of `ext2_dir_lookup` of a walk
* `Ext2.walkNested`, `Ext2.ext2WalkNested`: how many calls of `ext2_walk` are active at once

## Main results

* `Ext2.object_of_walk`: a walk that succeeds ends on an object
* `Ext2.walk_isSome`: a walk ends
* `ext2_walk_ends`: both, with at most five calls at once
-/

namespace I80k.Kernel

namespace Ext2

variable (fs : Ext2)

/-- The inode can be loaded, and is no symbolic link. -/
def Object (inum : ℕ) : Prop := ∃ inode, fs.ext2LoadInode inum = .ok inode ∧ ¬ inode.IsLnk

/-- Where the walk over the text of a link starts. -/
def linkStart (link : List Char8) (dirInode : Inode) : Inode :=
  if link.head? = some slash then fs.rootInode else dirInode

/-- The fuel for a walk at a level of recursion: three turns for each component, at this level and at
every level below it. -/
def walkFuel (recurse length : ℕ) : ℕ := 3 * 512 * (4 - recurse) + 3 * (length + 1)

mutual

/-- The calls of `ext2_dir_lookup` from the loop of `walk` on. -/
def walkLookups : ℕ → ℕ → List Char8 → Inode → ℕ → List (Inode × List Char8)
  | 0, _, _, _, _ => []
  | fuel + 1, recurse, ptr, dirInode, inum =>
    let name := ptr.takeWhile (· ≠ slash)
    (dirInode, name) ::
      match fs.ext2DirLookup dirInode name with
      | none => []
      | some (err, found) =>
        if err < 0 then []
        else nextLookups fuel recurse (ptr.drop name.length) dirInode (found.getD inum)

/-- The calls of `ext2_dir_lookup` from the label `nextcomponent` on. -/
def nextLookups : ℕ → ℕ → List Char8 → Inode → ℕ → List (Inode × List Char8)
  | 0, _, _, _, _ => []
  | fuel + 1, recurse, nextSep, dirInode, inum =>
    match fs.ext2LoadInode inum with
    | .error _ => []
    | .ok inode =>
      if inode.IsLnk then
        match fs.ext2ReadLink inode with
        | .error _ => []
        | .ok link =>
          let start := fs.linkStart link dirInode
          (if 4 < recurse + 1 then []
            else walkLookups fuel (recurse + 1) (link.dropWhile (· = slash)) start inum) ++
            match fs.ext2Walk fuel link start inum (recurse + 1) with
            | none => []
            | some (err, inum) =>
              if err < 0 then []
              else if nextSep = [] then []
              else nextLookups fuel recurse nextSep dirInode inum
      else if nextSep = [] then []
      else if inode.IsDir then walkLookups fuel recurse (nextSep.dropWhile (· = slash)) inode inum
      else []

end

/-- The calls of `ext2_dir_lookup` in a call of `ext2_walk`. -/
def ext2WalkLookups (fuel : ℕ) (path : List Char8) (startInode : Inode) (inum recurse : ℕ) :
    List (Inode × List Char8) :=
  if 4 < recurse then []
  else fs.walkLookups fuel recurse (path.dropWhile (· = slash)) startInode inum

/-- The lookup of a name in a directory returns. -/
def Returned (l : Inode × List Char8) : Prop := (fs.ext2DirLookup l.1 l.2).isSome

instance : DecidablePred fs.Returned := fun _ => inferInstanceAs (Decidable (_ = true))

mutual

/-- The calls of `ext2_walk` that are active at once below the loop of `walk`. -/
def walkNested : ℕ → ℕ → List Char8 → Inode → ℕ → ℕ
  | 0, _, _, _, _ => 0
  | fuel + 1, recurse, ptr, dirInode, inum =>
    let name := ptr.takeWhile (· ≠ slash)
    match fs.ext2DirLookup dirInode name with
    | none => 0
    | some (err, found) =>
      if err < 0 then 0
      else nextNested fuel recurse (ptr.drop name.length) dirInode (found.getD inum)

/-- The calls of `ext2_walk` that are active at once from the label `nextcomponent` on. -/
def nextNested : ℕ → ℕ → List Char8 → Inode → ℕ → ℕ
  | 0, _, _, _, _ => 0
  | fuel + 1, recurse, nextSep, dirInode, inum =>
    match fs.ext2LoadInode inum with
    | .error _ => 0
    | .ok inode =>
      if inode.IsLnk then
        match fs.ext2ReadLink inode with
        | .error _ => 0
        | .ok link =>
          let start := fs.linkStart link dirInode
          let below :=
            if 4 < recurse + 1 then 1
            else 1 + walkNested fuel (recurse + 1) (link.dropWhile (· = slash)) start inum
          match fs.ext2Walk fuel link start inum (recurse + 1) with
          | none => below
          | some (err, inum) =>
            if err < 0 then below
            else if nextSep = [] then below
            else max below (nextNested fuel recurse nextSep dirInode inum)
      else if nextSep = [] then 0
      else if inode.IsDir then walkNested fuel recurse (nextSep.dropWhile (· = slash)) inode inum
      else 0

end

/-- The calls of `ext2_walk` that are active at once in a call, itself included. -/
def ext2WalkNested (fuel : ℕ) (path : List Char8) (startInode : Inode) (inum recurse : ℕ) : ℕ :=
  if 4 < recurse then 1
  else 1 + fs.walkNested fuel recurse (path.dropWhile (· = slash)) startInode inum

variable {fs}

/-! ## One component -/

/-- A turn of the loop, up to the label. -/
theorem walk_succ {fuel recurse : ℕ} {ptr : List Char8} {dir : Inode} {inum : ℕ} {err : Int16}
    {found : Option ℕ} (h : fs.ext2DirLookup dir (ptr.takeWhile (· ≠ slash)) = some (err, found)) :
    fs.walk (fuel + 1) recurse ptr dir inum =
      if err < 0 then some (err, inum)
      else fs.nextComponent fuel recurse (ptr.dropWhile (· ≠ slash)) dir (found.getD inum) := by
  rw [walk_turn]
  simp only [h, drop_length_takeWhile]

/-- The lookups of a turn of the loop. -/
theorem walkLookups_succ {fuel recurse : ℕ} {ptr : List Char8} {dir : Inode} {inum : ℕ} {err : Int16}
    {found : Option ℕ} (h : fs.ext2DirLookup dir (ptr.takeWhile (· ≠ slash)) = some (err, found)) :
    fs.walkLookups (fuel + 1) recurse ptr dir inum = (dir, ptr.takeWhile (· ≠ slash)) ::
      if err < 0 then [] else fs.nextLookups fuel recurse (ptr.dropWhile (· ≠ slash)) dir (found.getD inum) := by
  rw [walkLookups]
  simp only [h, drop_length_takeWhile]

/-- The first lookup of the loop. -/
theorem head_mem_walkLookups (fuel recurse : ℕ) (ptr : List Char8) (dir : Inode) (inum : ℕ) :
    (dir, ptr.takeWhile (· ≠ slash)) ∈ fs.walkLookups (fuel + 1) recurse ptr dir inum := by
  rw [walkLookups]
  exact List.mem_cons_self

/-- At the label, on an inode that is no link. -/
theorem nextComponent_object {fuel recurse : ℕ} {nextSep : List Char8} {dir inode : Inode} {inum : ℕ}
    (hload : fs.ext2LoadInode inum = .ok inode) (hlnk : ¬ inode.IsLnk) :
    fs.nextComponent (fuel + 1) recurse nextSep dir inum =
      if nextSep = [] then some (0, inum)
      else if inode.IsDir then fs.walk fuel recurse (nextSep.dropWhile (· = slash)) inode inum
      else some (errNoEntry, inum) := by
  rw [nextComponent_turn]
  simp only [hload, if_neg hlnk]

/-- The lookups from there on. -/
theorem nextLookups_object {fuel recurse : ℕ} {nextSep : List Char8} {dir inode : Inode} {inum : ℕ}
    (hload : fs.ext2LoadInode inum = .ok inode) (hlnk : ¬ inode.IsLnk) :
    fs.nextLookups (fuel + 1) recurse nextSep dir inum =
      if nextSep = [] then []
      else if inode.IsDir then fs.walkLookups fuel recurse (nextSep.dropWhile (· = slash)) inode inum
      else [] := by
  rw [nextLookups]
  simp only [hload, if_neg hlnk]

/-- At the label, on a link: a call of `ext2_walk`, and back to the label. -/
theorem nextComponent_link {fuel recurse : ℕ} {nextSep link : List Char8} {dir inode : Inode} {inum : ℕ}
    (hload : fs.ext2LoadInode inum = .ok inode) (hlnk : inode.IsLnk)
    (hlink : fs.ext2ReadLink inode = .ok link) :
    fs.nextComponent (fuel + 1) recurse nextSep dir inum =
      (fs.ext2Walk fuel link (fs.linkStart link dir) inum (recurse + 1)).bind fun (err, inum) =>
        if err < 0 then some (err, inum)
        else if nextSep = [] then some (0, inum)
        else fs.nextComponent fuel recurse nextSep dir inum := by
  rw [nextComponent_turn]
  simp only [hload, if_pos hlnk, hlink]
  rw [ext2Walk_eq, linkStart]
  generalize (if 4 < recurse + 1 then some (errNoEntry, inum) else fs.walk fuel (recurse + 1)
    (link.dropWhile (· = slash)) (if link.head? = some slash then fs.rootInode else dir) inum) = result
  cases result with
  | none => rfl
  | some r => rfl

/-- The lookups of that call, and those after it. -/
theorem nextLookups_link {fuel recurse : ℕ} {nextSep link : List Char8} {dir inode : Inode} {inum : ℕ}
    (hload : fs.ext2LoadInode inum = .ok inode) (hlnk : inode.IsLnk)
    (hlink : fs.ext2ReadLink inode = .ok link) :
    fs.nextLookups (fuel + 1) recurse nextSep dir inum =
      fs.ext2WalkLookups fuel link (fs.linkStart link dir) inum (recurse + 1) ++
        match fs.ext2Walk fuel link (fs.linkStart link dir) inum (recurse + 1) with
        | none => []
        | some (err, inum) =>
          if err < 0 then []
          else if nextSep = [] then []
          else fs.nextLookups fuel recurse nextSep dir inum := by
  rw [nextLookups]
  simp only [hload, if_pos hlnk, hlink, ext2WalkLookups]

/-- Inodes and links that cannot be read are reported by a negative value. -/
theorem ext2LoadInode_error {inum : ℕ} {err : Int16} (h : fs.ext2LoadInode inum = .error err) :
    err < 0 := by
  simp only [ext2LoadInode] at h
  split_ifs at h with hneg
  exact Except.error.inj h ▸ hneg

theorem ext2ReadLink_error {inode : Inode} {err : Int16} (h : fs.ext2ReadLink inode = .error err) :
    err < 0 := by
  simp only [ext2ReadLink] at h
  split_ifs at h with hlen hlong hneg
  · exact Except.error.inj h ▸ (by decide)
  · exact Except.error.inj h ▸ hneg

theorem length_ext2ReadLink {inode : Inode} {link : List Char8} (h : fs.ext2ReadLink inode = .ok link) :
    link.length < 512 := by
  have hcut : ∀ (bytes : List Char8) (k : ℕ), (cstring (bytes.take k)).length ≤ k := fun bytes k =>
    (List.takeWhile_prefix _).length_le.trans (List.length_take_le _ _)
  simp only [ext2ReadLink] at h
  split_ifs at h with hlen hlong hneg
  · have hle := hcut (fs.ext2ReadInode inode 0 (fs.ext2FileLen inode).toNat).2.bytes
      (fs.ext2FileLen inode).toNat
    rw [← Except.ok.inj h]
    omega
  · have hle := hcut (inode.block.flatMap bytesLe32) (fs.ext2FileLen inode).toNat
    rw [← Except.ok.inj h]
    omega

/-- At the label the walk fails, or the inode is an object, or it is a link that can be read. -/
theorem nextComponent_cases (fs : Ext2) (inum : ℕ) :
    (∃ err, err < 0 ∧ ∀ fuel recurse nextSep dir,
      fs.nextComponent (fuel + 1) recurse nextSep dir inum = some (err, inum)) ∨
    (∃ inode, fs.ext2LoadInode inum = .ok inode ∧ ¬ inode.IsLnk) ∨
    ∃ inode link, fs.ext2LoadInode inum = .ok inode ∧ inode.IsLnk ∧ fs.ext2ReadLink inode = .ok link := by
  cases hload : fs.ext2LoadInode inum with
  | error err =>
    refine Or.inl ⟨err, ext2LoadInode_error hload, fun fuel recurse nextSep dir => ?_⟩
    rw [nextComponent_turn]
    simp only [hload]
  | ok inode =>
    by_cases hlnk : inode.IsLnk
    · cases hlink : fs.ext2ReadLink inode with
      | error err =>
        refine Or.inl ⟨err, ext2ReadLink_error hlink, fun fuel recurse nextSep dir => ?_⟩
        rw [nextComponent_turn]
        simp only [hload, if_pos hlnk, hlink]
      | ok link => exact Or.inr (Or.inr ⟨inode, link, rfl, hlnk, hlink⟩)
    · exact Or.inr (Or.inl ⟨inode, rfl, hlnk⟩)

/-! ## A walk ends on an object -/

/-- A result of a walk: an error, or an object. -/
def Lands (fs : Ext2) (result : Option (Int16 × ℕ)) : Prop :=
  ∀ err inum, result = some (err, inum) → ¬ err < 0 → fs.Object inum

theorem lands_error {err : Int16} (h : err < 0) (inum : ℕ) : Lands fs (some (err, inum)) := by
  intro err' inum' he hneg
  obtain ⟨rfl, rfl⟩ := Prod.mk.inj (Option.some.inj he)
  exact absurd h hneg

theorem lands_object {inum : ℕ} (h : fs.Object inum) : Lands fs (some (0, inum)) := by
  intro err' inum' he _
  obtain ⟨-, rfl⟩ := Prod.mk.inj (Option.some.inj he)
  exact h

/-- **A walk that succeeds ends on an object**, at every level of recursion. -/
theorem lands_walk (fuel : ℕ) :
    (∀ recurse ptr dir inum, Lands fs (fs.walk fuel recurse ptr dir inum)) ∧
      ∀ recurse nextSep dir inum, Lands fs (fs.nextComponent fuel recurse nextSep dir inum) := by
  induction fuel with
  | zero =>
    refine ⟨fun _ _ _ _ err inum h => ?_, fun _ _ _ _ err inum h => ?_⟩
    · rw [walk_zero] at h
      cases h
    · rw [nextComponent_zero] at h
      cases h
  | succ fuel ih =>
    obtain ⟨ihwalk, ihnext⟩ := ih
    refine ⟨fun recurse ptr dir inum => ?_, fun recurse nextSep dir inum => ?_⟩
    · cases hlookup : fs.ext2DirLookup dir (ptr.takeWhile (· ≠ slash)) with
      | none =>
        intro err inum' h
        rw [walk_turn] at h
        simp only [hlookup] at h
        cases h
      | some r =>
        rw [walk_succ hlookup]
        split_ifs with hneg
        · exact lands_error hneg inum
        · exact ihnext _ _ _ _
    · rcases nextComponent_cases fs inum with ⟨err, hneg, heq⟩ | ⟨inode, hload, hlnk⟩ |
        ⟨inode, link, hload, hlnk, hlink⟩
      · rw [heq]
        exact lands_error hneg inum
      · rw [nextComponent_object hload hlnk]
        split_ifs
        · exact lands_object ⟨inode, hload, hlnk⟩
        · exact ihwalk _ _ _ _
        · exact lands_error (by decide) inum
      · -- the call for the link ends on an object, and the last component is that object
        have hsub : Lands fs (fs.ext2Walk fuel link (fs.linkStart link dir) inum (recurse + 1)) := by
          rw [ext2Walk_eq]
          split_ifs
          · exact lands_error (by decide) inum
          · exact ihwalk _ _ _ _
        rw [nextComponent_link hload hlnk hlink]
        intro err inum' h hneg
        obtain ⟨⟨e, i⟩, hres, h⟩ := Option.bind_eq_some_iff.mp h
        dsimp only at h
        split_ifs at h with he hnil
        · exact lands_error he i _ _ h hneg
        · exact lands_object (hsub e i hres he) _ _ h hneg
        · exact ihnext _ _ _ _ _ _ h hneg

theorem lands_ext2Walk (fuel : ℕ) (path : List Char8) (start : Inode) (inum recurse : ℕ) :
    Lands fs (fs.ext2Walk fuel path start inum recurse) := by
  rw [ext2Walk_eq]
  split_ifs
  · exact lands_error (by decide) inum
  · exact (lands_walk fuel).1 _ _ _ _

/-! ## A walk ends -/

theorem walkFuel_mono (recurse : ℕ) {m n : ℕ} (h : m ≤ n) : walkFuel recurse m ≤ walkFuel recurse n := by
  simp only [walkFuel]
  omega

theorem length_dropWhile_slash (path : List Char8) : (path.dropWhile (· = slash)).length ≤ path.length :=
  (List.dropWhile_suffix _).length_le

/-- Behind a component there is nothing, or a separator. -/
theorem dropWhile_component_head (ptr : List Char8) :
    ptr.dropWhile (· ≠ slash) = [] ∨ (ptr.dropWhile (· ≠ slash)).head? = some slash := by
  have hhead := List.head?_dropWhile_not (fun c => decide (c ≠ slash)) ptr
  cases hrest : ptr.dropWhile (· ≠ slash) with
  | nil => exact Or.inl rfl
  | cons c rest =>
    rw [hrest] at hhead
    have hc : c = slash := by simpa using hhead
    exact Or.inr (by rw [hc, List.head?_cons])

/-- The walk goes on behind at least one separator. -/
theorem length_next_lt {nextSep : List Char8} (h : nextSep = [] ∨ nextSep.head? = some slash)
    (hne : nextSep ≠ []) : (nextSep.dropWhile (· = slash)).length + 1 ≤ nextSep.length := by
  obtain ⟨c, rest, rfl⟩ := List.exists_cons_of_ne_nil hne
  have hc : c = slash := by simpa using h
  rw [List.dropWhile_cons_of_pos (by simpa using hc), List.length_cons]
  exact Nat.succ_le_succ (length_dropWhile_slash rest)

/-- With a fuel of `walkFuel` a walk whose lookups return does so, too, and at the label it needs one turn less. On
an object it needs two turns less, as there is no link to follow. -/
theorem walk_isSome (fuel : ℕ) :
    (∀ recurse ptr dir inum, recurse ≤ 4 → walkFuel recurse ptr.length ≤ fuel →
      (∀ l ∈ fs.walkLookups fuel recurse ptr dir inum, fs.Returned l) →
      (fs.walk fuel recurse ptr dir inum).isSome) ∧
    (∀ recurse nextSep dir inum, recurse ≤ 4 → (nextSep = [] ∨ nextSep.head? = some slash) →
      walkFuel recurse nextSep.length ≤ fuel + 1 →
      (∀ l ∈ fs.nextLookups fuel recurse nextSep dir inum, fs.Returned l) →
      (fs.nextComponent fuel recurse nextSep dir inum).isSome) ∧
    (∀ recurse nextSep dir inum, recurse ≤ 4 → (nextSep = [] ∨ nextSep.head? = some slash) →
      walkFuel recurse nextSep.length ≤ fuel + 2 → fs.Object inum →
      (∀ l ∈ fs.nextLookups fuel recurse nextSep dir inum, fs.Returned l) →
      (fs.nextComponent fuel recurse nextSep dir inum).isSome) := by
  induction fuel with
  | zero =>
    refine ⟨?_, ?_, ?_⟩
    · intro recurse ptr dir inum _ hfuel
      rw [walkFuel] at hfuel
      omega
    · intro recurse nextSep dir inum _ _ hfuel
      rw [walkFuel] at hfuel
      omega
    · intro recurse nextSep dir inum _ _ hfuel
      rw [walkFuel] at hfuel
      omega
  | succ fuel ih =>
    obtain ⟨ihwalk, ihnext, ihobject⟩ := ih
    -- an object needs no more than the walk over the rest of the path
    have hobject : ∀ recurse nextSep dir inum, recurse ≤ 4 → (nextSep = [] ∨ nextSep.head? = some slash) →
        walkFuel recurse nextSep.length ≤ fuel + 3 → fs.Object inum →
        (∀ l ∈ fs.nextLookups (fuel + 1) recurse nextSep dir inum, fs.Returned l) →
        (fs.nextComponent (fuel + 1) recurse nextSep dir inum).isSome := by
      intro recurse nextSep dir inum hrec hsep hfuel hobj hret
      obtain ⟨inode, hload, hlnk⟩ := hobj
      rw [nextLookups_object hload hlnk] at hret
      rw [nextComponent_object hload hlnk]
      split_ifs at hret ⊢ with hnil hisdir
      · rfl
      · have hlt := length_next_lt hsep hnil
        refine ihwalk _ _ _ _ hrec ?_ hret
        simp only [walkFuel] at hfuel ⊢
        omega
      · rfl
    refine ⟨?_, ?_, hobject⟩
    · intro recurse ptr dir inum hrec hfuel hret
      -- the first lookup returns, and the walk goes on to the label with the others
      obtain ⟨⟨err, found⟩, hlookup⟩ := Option.isSome_iff_exists.mp (hret _ (head_mem_walkLookups _ _ _ _ _))
      rw [walkLookups_succ hlookup] at hret
      have hrest := fun l hl => hret l (List.mem_cons_of_mem _ hl)
      rw [walk_succ hlookup]
      split_ifs at hrest ⊢ with hneg
      · rfl
      · refine ihnext _ _ _ _ hrec (dropWhile_component_head ptr) ((walkFuel_mono recurse ?_).trans hfuel) hrest
        exact (List.dropWhile_suffix _).length_le
    · intro recurse nextSep dir inum hrec hsep hfuel hret
      rcases nextComponent_cases fs inum with ⟨err, -, heq⟩ | hobj | ⟨inode, link, hload, hlnk, hlink⟩
      · rw [heq]
        rfl
      · exact hobject _ _ _ _ hrec hsep (by omega) hobj hret
      · rw [nextLookups_link hload hlnk hlink] at hret
        rw [nextComponent_link hload hlnk hlink]
        -- the text of the link is shorter than 512 characters, so the call has the fuel of its level
        have hbelow := fun l hl => hret l (List.mem_append_left _ hl)
        have hsub : (fs.ext2Walk fuel link (fs.linkStart link dir) inum (recurse + 1)).isSome := by
          rw [ext2WalkLookups] at hbelow
          rw [ext2Walk_eq]
          split_ifs at hbelow ⊢ with hdeep
          · rfl
          · have hlt := length_ext2ReadLink hlink
            have hle := length_dropWhile_slash link
            refine ihwalk _ _ _ _ (by omega) ?_ hbelow
            simp only [walkFuel] at hfuel ⊢
            omega
        obtain ⟨⟨err, inum'⟩, hres⟩ := Option.isSome_iff_exists.mp hsub
        rw [hres] at hret
        have hafter := fun l hl => hret l (List.mem_append_right _ hl)
        rw [hres, Option.bind_some]
        dsimp only at hafter ⊢
        split_ifs at hafter ⊢ with he hnil
        · rfl
        · rfl
        -- back at the label, where `*inum` is the inode of an object now
        · exact ihobject _ _ _ _ hrec hsep (by omega) (lands_ext2Walk _ _ _ _ _ err inum' hres he) hafter

theorem ext2Walk_isSome (path : List Char8) (start : Inode) (inum recurse : ℕ) {fuel : ℕ}
    (hfuel : walkFuel recurse path.length ≤ fuel)
    (hret : ∀ l ∈ fs.ext2WalkLookups fuel path start inum recurse, fs.Returned l) :
    (fs.ext2Walk fuel path start inum recurse).isSome := by
  rw [ext2WalkLookups] at hret
  rw [ext2Walk_eq]
  split_ifs at hret ⊢ with hdeep
  · rfl
  · refine (walk_isSome fuel).1 _ _ _ _ (by omega) ((walkFuel_mono recurse ?_).trans hfuel) hret
    exact length_dropWhile_slash path

/-! ## Nested calls -/

/-- Below a call at a level of recursion there are at most the levels up to 5. -/
theorem walkNested_le (fs : Ext2) (fuel : ℕ) :
    (∀ recurse ptr dir inum, recurse ≤ 4 → fs.walkNested fuel recurse ptr dir inum ≤ 5 - recurse) ∧
      ∀ recurse nextSep dir inum, recurse ≤ 4 →
        fs.nextNested fuel recurse nextSep dir inum ≤ 5 - recurse := by
  induction fuel with
  | zero =>
    refine ⟨fun _ _ _ _ _ => ?_, fun _ _ _ _ _ => ?_⟩
    · rw [walkNested]
      exact Nat.zero_le _
    · rw [nextNested]
      exact Nat.zero_le _
  | succ fuel ih =>
    obtain ⟨ihwalk, ihnext⟩ := ih
    refine ⟨fun recurse ptr dir inum hrec => ?_, fun recurse nextSep dir inum hrec => ?_⟩
    · rw [walkNested]
      cases hlookup : fs.ext2DirLookup dir (ptr.takeWhile (· ≠ slash)) with
      | none => exact Nat.zero_le _
      | some r =>
        simp only
        split_ifs
        · exact Nat.zero_le _
        · exact ihnext _ _ _ _ hrec
    · rw [nextNested]
      cases hload : fs.ext2LoadInode inum with
      | error err => exact Nat.zero_le _
      | ok inode =>
        simp only
        by_cases hlnk : inode.IsLnk
        · rw [if_pos hlnk]
          cases hlink : fs.ext2ReadLink inode with
          | error err => exact Nat.zero_le _
          | ok link =>
            simp only
            -- the call for the link is one level further down, and level 5 makes no calls
            have hbelow : (if 4 < recurse + 1 then 1
                else 1 + fs.walkNested fuel (recurse + 1) (link.dropWhile (· = slash))
                  (fs.linkStart link dir) inum) ≤ 5 - recurse := by
              split_ifs with hdeep
              · omega
              · have hle := ihwalk (recurse + 1) (link.dropWhile (· = slash)) (fs.linkStart link dir) inum
                  (by omega)
                omega
            generalize (if 4 < recurse + 1 then 1 else _) = below at hbelow ⊢
            cases hwalk : fs.ext2Walk fuel link (fs.linkStart link dir) inum (recurse + 1) with
            | none => exact hbelow
            | some r =>
              simp only
              split_ifs
              · exact hbelow
              · exact hbelow
              · exact max_le hbelow (ihnext _ _ _ _ hrec)
        · rw [if_neg hlnk]
          split_ifs
          · exact Nat.zero_le _
          · exact ihwalk _ _ _ _ hrec
          · exact Nat.zero_le _

theorem ext2WalkNested_le (fuel : ℕ) (path : List Char8) (start : Inode) (inum : ℕ) {recurse : ℕ}
    (h : 1 ≤ recurse) : fs.ext2WalkNested fuel path start inum recurse ≤ 5 := by
  rw [ext2WalkNested]
  split_ifs with hdeep
  · omega
  · have hle := (walkNested_le fs fuel).1 recurse (path.dropWhile (· = slash)) start inum (by omega)
    omega

end Ext2

/-- **Walks end, on objects.** For every content of the disk: every call of `ext2_walk` whose lookups in directories
return does so, too, in at most three turns for each component and each level of recursion; below `ext2_lookup` at most
five calls are active at once; and when the result is not negative, the inode number left in `*inum` is that of an inode
that is no symbolic link. -/
theorem ext2_walk_ends (fs : Ext2) :
    (∀ path start inum recurse fuel, Ext2.walkFuel recurse path.length ≤ fuel →
      (∀ l ∈ fs.ext2WalkLookups fuel path start inum recurse, fs.Returned l) →
      (fs.ext2Walk fuel path start inum recurse).isSome) ∧
    (∀ path inum, (∀ l ∈ fs.ext2WalkLookups 8192 (strlcpy path 512) fs.rootInode inum 1, fs.Returned l) →
      (fs.ext2Lookup path inum).isSome) ∧
    (∀ fuel path inum, fs.ext2WalkNested fuel (strlcpy path 512) fs.rootInode inum 1 ≤ 5) ∧
    (∀ fuel path start inum recurse err inum',
      fs.ext2Walk fuel path start inum recurse = some (err, inum') → 0 ≤ err →
        ∃ inode, fs.ext2LoadInode inum' = .ok inode ∧ ¬ inode.IsLnk) := by
  refine ⟨fun path start inum recurse fuel hfuel => Ext2.ext2Walk_isSome path start inum recurse hfuel,
    fun path inum hret => ?_, fun fuel path inum => Ext2.ext2WalkNested_le fuel _ _ _ le_rfl, ?_⟩
  · refine Ext2.ext2Walk_isSome _ _ _ _ ?_ hret
    have hlen : (strlcpy path 512).length ≤ 511 := List.length_take_le _ _
    simp only [Ext2.walkFuel]
    omega
  · intro fuel path start inum recurse err inum' hwalk hpos
    exact Ext2.lands_ext2Walk fuel path start inum recurse err inum' hwalk (Int16.not_lt.mpr hpos)

/-- A root directory in block 10 with a link `l` to `/a`, and the empty file `a`. -/
def linkDisk : ℕ → UInt8 :=
  diskOf
    [(5248, [0xED, 0x41, 0, 0, 0, 4]), (5288, [10]), (6528, [0xA4, 0x81]),
      (6656, [0xFF, 0xA1, 0, 0, 2]), (6696, [slash, 97]),
      (10240, [2, 0, 0, 0, 12, 0, 1, 2, period, 0, 0, 0]),
      (10252, [2, 0, 0, 0, 12, 0, 2, 2, period, period, 0, 0]),
      (10264, [13, 0, 0, 0, 12, 0, 1, 7, 108, 0, 0, 0]),
      (10276, [12, 0, 0, 0, 0xDC, 3, 1, 1, 97])]

/-- The file system on it. -/
def linkFs : Ext2 :=
  { Ext2.serving 0 linkDisk with rootInode := ⟨0x41ED, 1024, 10 :: List.replicate 14 0⟩ }

/-- There the lookup of `/l` ends, through the link, at the inode of `a`. -/
theorem ext2_walk_ends_link :
    (linkFs.ext2Lookup [slash, 108] 0).isSome ∧ linkFs.ext2Lookup [slash, 108] 0 = some (0, 12) ∧
      ∃ inode, linkFs.ext2LoadInode 12 = .ok inode ∧ ¬ inode.IsLnk := by
  obtain ⟨-, hlookup, -, hobject⟩ := ext2_walk_ends linkFs
  have hfound : linkFs.ext2Lookup [slash, 108] 0 = some (0, 12) := by decide +kernel
  exact ⟨hlookup _ _ (by decide +kernel), hfound, hobject _ _ _ _ _ 0 12 hfound (by decide)⟩

end I80k.Kernel

import I80k.Kernel.Ext2.BlockWidth
import I80k.Kernel.Ext2.DirBuffer

/-!
# Whether a lookup is exact

A path designates an inode if each of its components has a record in the directory that the components
before it designate. `ext2_walk` takes the components in the same order, but `ext2_dir_lookup` returns 0
for a name that is not there, and `ext2_walk` tests for a negative result only: it goes on with the
inode number that `*inum` held before. So a lookup of a missing name fails only if the walk then meets
something that is not a directory before its last component.

There is more that keeps the driver from the inode: the buffer of `ext2_dir_lookup`, and the limits of the
layers under it, on sizes, block numbers and addresses.

## Main definitions

* `components`: the components of a path
* `Ext2.resolve`: the inode that a path designates on the disk
* `Ext2.Exact`: `ext2_lookup` finds that inode, and fails if there is none
* `Ext2.Missing`, `Ext2.Stops`: a component is missing; the walk meets what is not a directory
* `Ext2.Image`: a consistent image, and a path on it
* `Ext2.Limit`, `Ext2.Within`: the limits within which the driver follows the disk

## Main results

* `Ext2.walk_eq`: the walk of the driver, over the components and on the disk
* `Ext2.Image.exact_iff`: within the limits, a lookup is exact if and only if there is memory for its buffer, and
  no component is missing or the walk stops
-/

namespace I80k.Kernel

/-! ## The components of a path -/

/-- The components of a path: what stands between the separators, without the empty ones. -/
def components (path : List Char8) : List (List Char8) :=
  (path.splitOnP (· = slash)).filter (· ≠ [])

/-- The path has room in the buffer of `ext2_lookup`, and ends in a component. -/
structure Lookable (path : List Char8) : Prop where
  length : path.length < 512
  last : ∃ c ≠ slash, path.getLast? = some c

theorem components_nil : components [] = [] := rfl

theorem components_slash_cons (path : List Char8) : components (slash :: path) = components path := by
  simp [components, List.splitOnP_cons_eq_if_modifyHead]

/-- Separators in front do not count. -/
theorem components_dropWhile (path : List Char8) :
    components (path.dropWhile (· = slash)) = components path := by
  induction path with
  | nil => rfl
  | cons c path ih =>
    by_cases hc : c = slash
    · subst hc
      simpa [components_slash_cons] using ih
    · simp [hc]

theorem length_components_le (path : List Char8) : (components path).length ≤ path.length := by
  induction path with
  | nil => simp [components_nil]
  | cons c path ih =>
    by_cases hc : c = slash
    · subst hc
      rw [components_slash_cons, List.length_cons]
      omega
    · obtain ⟨first, rest, hsplit⟩ := List.exists_cons_of_ne_nil
        (List.splitOnP_ne_nil (fun x => decide (x = slash)) path)
      have hle : ((first :: rest).filter (· ≠ [])).length ≤ path.length := hsplit ▸ ih
      have hcons : (rest.filter (· ≠ [])).length ≤ ((first :: rest).filter (· ≠ [])).length :=
        ((List.sublist_cons_self first rest).filter _).length_le
      simp only [components, List.splitOnP_cons_eq_if_modifyHead, hc, decide_false, hsplit]
      simpa using hcons.trans hle

/-- The first component ends at the first separator. -/
theorem components_eq_cons {c : Char8} {path : List Char8} (hc : c ≠ slash) :
    components (c :: path) =
      (c :: path).takeWhile (· ≠ slash) :: components ((c :: path).dropWhile (· ≠ slash)) := by
  have hsplit := List.takeWhile_append_dropWhile (p := fun x => decide (x ≠ slash)) (l := c :: path)
  have hfirst : (c :: path).takeWhile (· ≠ slash) ≠ [] := by simp [hc]
  have hnone : ∀ x ∈ (c :: path).takeWhile (· ≠ slash), decide (x = slash) = false := by
    intro x hx
    simpa using List.mem_takeWhile_imp hx
  set first := (c :: path).takeWhile (· ≠ slash) with hf
  cases hrest : (c :: path).dropWhile (· ≠ slash) with
  | nil =>
    rw [hrest, List.append_nil] at hsplit
    rw [components, ← hsplit, List.splitOnP_eq_singleton hnone, components_nil]
    simp [hfirst]
  | cons s rest =>
    have hs : s = slash := by
      have hhead := List.head?_dropWhile_not (fun x => decide (x ≠ slash)) (c :: path)
      rw [hrest] at hhead
      simpa using hhead
    subst hs
    rw [hrest] at hsplit
    rw [components, ← hsplit, List.splitOnP_append_cons_of_forall_mem hnone slash (by simp),
      components_slash_cons]
    simp [hfirst, components]

/-- A path that ends in a component starts with one, after its separators. -/
theorem dropWhile_slash {path : List Char8} {last : Char8} (hlast : path.getLast? = some last)
    (hslash : last ≠ slash) :
    ∃ c rest, c ≠ slash ∧ path.dropWhile (· = slash) = c :: rest ∧ (c :: rest).getLast? = some last := by
  cases hstart : path.dropWhile (· = slash) with
  | nil =>
    have hall := List.dropWhile_eq_nil_iff.mp hstart last (List.mem_of_getLast? hlast)
    simp [hslash] at hall
  | cons c rest =>
    refine ⟨c, rest, ?_, rfl, ?_⟩
    · have hhead := List.head?_dropWhile_not (fun x => decide (x = slash)) path
      rw [hstart] at hhead
      simpa using hhead
    · rw [← hlast, ← List.takeWhile_append_dropWhile (p := fun x => decide (x = slash)) (l := path), hstart,
        List.getLast?_append_of_ne_nil _ (List.cons_ne_nil _ _)]

/-- What stands after the first component: nothing, or a path that ends as before. -/
theorem dropWhile_component {path : List Char8} {last : Char8} (hlast : path.getLast? = some last) :
    path.dropWhile (· ≠ slash) = [] ∨ (path.dropWhile (· ≠ slash)).getLast? = some last := by
  refine or_iff_not_imp_left.mpr fun hne => ?_
  rw [← hlast, ← List.getLast?_append_of_ne_nil _ hne, List.takeWhile_append_dropWhile]

/-- A path that can be looked up starts with a component. -/
theorem Lookable.start {path : List Char8} (h : Lookable path) :
    ∃ c rest last, c ≠ slash ∧ last ≠ slash ∧ (strlcpy path 512).dropWhile (· = slash) = c :: rest ∧
      (c :: rest).getLast? = some last ∧ components (c :: rest) = components path := by
  obtain ⟨last, hslash, hlast⟩ := h.last
  obtain ⟨c, rest, hc, hstart, hlast'⟩ := dropWhile_slash hlast hslash
  have hcopy : strlcpy path 512 = path := List.take_of_length_le (by have := h.length; omega)
  exact ⟨c, rest, last, hc, hslash, by rw [hcopy, hstart], hlast', by rw [← hstart, components_dropWhile]⟩

theorem Lookable.components_ne_nil {path : List Char8} (h : Lookable path) : components path ≠ [] := by
  obtain ⟨c, rest, last, hc, -, -, -, hnames⟩ := h.start
  rw [← hnames, components_eq_cons hc]
  exact List.cons_ne_nil _ _

namespace Ext2

/-! ## What the path designates -/

section Spec

variable (fs : Ext2) (disk : ℕ → UInt8)

/-- The inode that the components designate, from a directory on. -/
def resolve (dir : Inode) : List (List Char8) → Option ℕ
  | [] => none
  | name :: rest =>
    if dir.IsDir then
      (lookupEntry disk fs.blockSize dir name).bind fun inum =>
        if rest = [] then some inum else resolve (fs.diskInode disk inum) rest
    else none

/-- `ext2_lookup` succeeds with the inode that the path designates, and fails if there is none. -/
def Exact {β : Type} (sbrk : Libc.Sbrk β) (heap : Libc.Data β) (path : List Char8) (inum : ℕ) : Prop :=
  match fs.resolve disk fs.rootInode (components path) with
  | some found => ∃ err, 0 ≤ err ∧ fs.ext2LookupOn sbrk heap path inum = some (err, found)
  | none => ∃ err inum', err < 0 ∧ fs.ext2LookupOn sbrk heap path inum = some (err, inum')

/-- The inode that the walk goes on with: the one of the name, or the one it had before, unless the directory
has more blocks than a lookup goes through. -/
def nextInum (dir : Inode) (inum : ℕ) (name : List Char8) : Option ℕ :=
  match lookupEntry disk fs.blockSize dir name with
  | some found => some found
  | none => if dir.size ≤ 1024 * fs.blockSize then some inum else none

/-- What a lookup in a directory returns, on the disk. -/
def dirResult (dir : Inode) (name : List Char8) : Int16 × Option ℕ :=
  match lookupEntry disk fs.blockSize dir name with
  | some found => (1, some found)
  | none => if dir.size ≤ 1024 * fs.blockSize then (0, none) else (-1, none)

/-- A component is looked up in a directory that does not have it, and is small enough to be searched to its
end. -/
def Missing (dir : Inode) : List (List Char8) → Prop
  | [] => False
  | name :: rest => dir.IsDir ∧
    match lookupEntry disk fs.blockSize dir name with
    | none => dir.size ≤ 1024 * fs.blockSize
    | some inum => Missing (fs.diskInode disk inum) rest

/-- The walk does not go on, or meets an inode that is not a directory before its last component. -/
def Stops (dir : Inode) (inum : ℕ) : List (List Char8) → Prop
  | [] => False
  | name :: rest =>
    match fs.nextInum disk dir inum name with
    | none => True
    | some next =>
      rest ≠ [] ∧ (¬ (fs.diskInode disk next).IsDir ∨ Stops (fs.diskInode disk next) next rest)

/-- The walk of the driver, on the disk. -/
def walkDisk (dir : Inode) (inum : ℕ) : List (List Char8) → Int16 × ℕ
  | [] => (0, inum)
  | name :: rest =>
    match fs.nextInum disk dir inum name with
    | none => (-1, inum)
    | some next =>
      if rest = [] then (0, next)
      else if (fs.diskInode disk next).IsDir then walkDisk (fs.diskInode disk next) next rest
      else (errNoEntry, next)

/-! ## Where the driver can follow -/

/-- A turn of the walk. -/
structure Turn where
  dir : Inode
  name : List Char8
  /-- The inode that it goes on with. -/
  next : Option ℕ
  /-- Whether this name, or one before it, is not there. -/
  astray : Bool
  deriving DecidableEq

/-- The turns of the walk. -/
def turns (dir : Inode) (inum : ℕ) (astray : Bool) : List (List Char8) → List Turn
  | [] => []
  | name :: rest =>
    let astray := astray || (lookupEntry disk fs.blockSize dir name).isNone
    ⟨dir, name, fs.nextInum disk dir inum name, astray⟩ ::
      match fs.nextInum disk dir inum name with
      | none => []
      | some next =>
        if (fs.diskInode disk next).IsDir then turns (fs.diskInode disk next) next astray rest else []

/-- The number of an inode that is not a symbolic link. -/
def NoLink (num : ℕ) : Prop := 1 ≤ num ∧ num ≤ 2 ^ 32 ∧ ¬ (fs.diskInode disk num).IsLnk

instance (num : ℕ) : Decidable (fs.NoLink disk num) := inferInstanceAs (Decidable (_ ∧ _))

/-- A consistent image, and a path on it with no symbolic links. The directories that the walk goes through are
sound, also where it has lost its way. -/
structure Image (path : List Char8) (inum : ℕ) : Prop where
  delivers : fs.Delivers disk
  logBlockSize : fs.logBlockSize ≤ 2
  root : fs.rootInode.IsDir
  lookable : Lookable path
  sound : ∀ t ∈ fs.turns disk fs.rootInode inum false (components path),
    fs.SoundDir disk t.dir ∧ (t.astray = false → ∀ num ∈ t.next, fs.NoLink disk num)

end Spec

/-- What keeps the driver from following the disk, apart from missing names, and from having no buffer. -/
inductive Limit
  /-- A directory of 2 GiB, or a name behind its first 1025 blocks. -/
  | reach
  /-- An indirect block whose number has more than 16 bits. -/
  | narrow
  /-- An indirect block for which there is no memory. -/
  | cache
  /-- A block, or an inode, behind the first 2 GiB of the disk. -/
  | address
  /-- An unused record with the name, in front of the one in use. -/
  | live
  /-- An inode behind the first 64 KiB of the table of its group. -/
  | offset
  /-- A number in `*inum`, where the walk goes on with it, that is null or that of a link. -/
  | stale
  deriving DecidableEq

instance (p : Limit → Prop) [DecidablePred p] : Decidable (∀ limit : Limit, p limit) :=
  decidable_of_iff
    (p .reach ∧ p .narrow ∧ p .cache ∧ p .address ∧ p .live ∧ p .offset ∧ p .stale)
    ⟨fun ⟨h₁, h₂, h₃, h₄, h₅, h₆, h₇⟩ limit => by cases limit <;> assumption,
      fun h => ⟨h _, h _, h _, h _, h _, h _, h _⟩⟩

/-- A turn of the walk keeps within a limit. -/
def Turn.Within (fs : Ext2) (disk : ℕ → UInt8) (t : Turn) : Limit → Prop
  | .reach => t.dir.size < 2 ^ 31 ∧
      ((lookupEntry disk fs.blockSize t.dir t.name).isSome → (fs.firstEntry disk t.dir t.name).isSome)
  | .narrow => ∀ k, fs.Searches disk t.dir t.name k → t.dir.Narrow disk fs.blockSize k
  | .cache => ∀ k, fs.Searches disk t.dir t.name k → t.dir.Cached disk fs.blockSize fs k
  | .address =>
      (∀ k, fs.Searches disk t.dir t.name k →
        designated disk fs.blockSize t.dir k * fs.blockSize + fs.blockSize ≤ 2 ^ 31) ∧
      ∀ num ∈ t.next, fs.inodeAddr num + 128 ≤ 2 ^ 31
  | .live => ∀ e ∈ fs.firstEntry disk t.dir t.name, e.inode ≠ 0
  | .offset => ∀ num ∈ t.next, fs.inodeOffset num < 2 ^ 16
  | .stale => t.astray → ∀ num ∈ t.next, fs.NoLink disk num

instance (fs : Ext2) (disk : ℕ → UInt8) (t : Turn) (limit : Limit) : Decidable (t.Within fs disk limit) := by
  cases limit with
  | reach => exact inferInstanceAs (Decidable (_ ∧ _))
  | narrow => exact decidableSearches ..
  | cache => exact decidableSearches ..
  | address => exact inferInstanceAs (Decidable (_ ∧ _))
  | live => exact inferInstanceAs (Decidable (∀ e ∈ _, _))
  | offset => exact inferInstanceAs (Decidable (∀ num ∈ _, _))
  | stale => exact inferInstanceAs (Decidable (_ → _))

/-- All turns of the walk do. -/
def Within (fs : Ext2) (disk : ℕ → UInt8) (path : List Char8) (inum : ℕ) (limit : Limit) : Prop :=
  ∀ t ∈ fs.turns disk fs.rootInode inum false (components path), t.Within fs disk limit

instance (fs : Ext2) (disk : ℕ → UInt8) (path : List Char8) (inum : ℕ) (limit : Limit) :
    Decidable (fs.Within disk path inum limit) := inferInstanceAs (Decidable (∀ t ∈ _, _))

variable {fs : Ext2} {disk : ℕ → UInt8}

/-! ## The walk of the driver -/

/-- Within the limits, a turn looks its name up as it is on the disk, … -/
theorem dirLookup_of_within {t : Turn} (h : ∀ limit, t.Within fs disk limit) (hsound : fs.SoundDir disk t.dir)
    (hdir : t.dir.IsDir) (hdelivers : fs.Delivers disk) (hlog : fs.logBlockSize ≤ 2) :
    fs.ext2DirLookup t.dir t.name = some (fs.dirResult disk t.dir t.name) := by
  have hscan : fs.ScansDir disk t.dir t.name := ⟨(h .reach).1, h .narrow, h .cache, (h .address).1⟩
  rw [hsound.dirLookup hscan hdir hdelivers hlog, dirResult, lookupEntry_eq (h .reach).2 (h .live)]
  cases fs.firstEntry disk t.dir t.name with
  | some e => rfl
  | none => rfl

/-- … and loads the inode that it goes on with. -/
theorem loadInode_of_within {t : Turn} (h : ∀ limit, t.Within fs disk limit)
    (hfound : t.astray = false → ∀ num ∈ t.next, fs.NoLink disk num) (hdelivers : fs.Delivers disk)
    (hlog : fs.logBlockSize ≤ 2) {num : ℕ} (hnum : t.next = some num) :
    fs.ext2LoadInode num = .ok (fs.diskInode disk num) ∧ ¬ (fs.diskInode disk num).IsLnk := by
  have hnolink : fs.NoLink disk num := by
    cases hastray : t.astray with
    | false => exact hfound hastray num hnum
    | true => exact h .stale hastray num hnum
  obtain ⟨hpos, hlt, hlnk⟩ := hnolink
  exact ⟨hdelivers.loadInode hlog hpos hlt (h .offset num hnum) ((h .address).2 num hnum), hlnk⟩

/-- The lookup gives up, or the walk goes on with an inode number: what is not found is left as it was. -/
theorem nextInum_cases (fs : Ext2) (disk : ℕ → UInt8) (dir : Inode) (inum : ℕ) (name : List Char8) :
    (fs.nextInum disk dir inum name = none ∧ fs.dirResult disk dir name = (-1, none)) ∨
      ∃ err found, fs.dirResult disk dir name = (err, found) ∧ ¬ err < 0 ∧
        fs.nextInum disk dir inum name = some (found.getD inum) := by
  rw [nextInum, dirResult]
  cases lookupEntry disk fs.blockSize dir name with
  | some found => exact Or.inr ⟨1, some found, rfl, by decide, rfl⟩
  | none =>
    simp only
    split_ifs
    · exact Or.inr ⟨0, none, rfl, by decide, rfl⟩
    · exact Or.inl ⟨rfl, rfl⟩

/-- The walk over a path that starts with a component. A turn of the loop takes one unit of fuel for
the component and one for its inode. -/
theorem walk_eq (hdelivers : fs.Delivers disk) (hlog : fs.logBlockSize ≤ 2) {recurse : ℕ} {last : Char8}
    (hslash : last ≠ slash) (names : List (List Char8)) :
    ∀ {fuel inum : ℕ} {astray : Bool} {dir : Inode} {c : Char8} {path : List Char8}, c ≠ slash →
      (c :: path).getLast? = some last → components (c :: path) = names → 2 * names.length ≤ fuel →
      dir.IsDir →
      (∀ t ∈ fs.turns disk dir inum astray names,
        fs.SoundDir disk t.dir ∧ (t.astray = false → ∀ num ∈ t.next, fs.NoLink disk num)) →
      (∀ t ∈ fs.turns disk dir inum astray names, ∀ limit, t.Within fs disk limit) →
      fs.walk fuel recurse (c :: path) dir inum = some (fs.walkDisk disk dir inum names) := by
  induction names with
  | nil =>
    intro fuel inum astray dir c path hc _ hnames
    rw [components_eq_cons hc] at hnames
    cases hnames
  | cons name rest ih =>
    intro fuel inum astray dir c path hc hlast hnames hfuel hdir hsound hwithin
    obtain ⟨fuel, rfl⟩ : ∃ n, fuel = n + 2 := ⟨fuel - 2, by simp at hfuel; omega⟩
    rw [turns] at hsound hwithin
    obtain ⟨⟨hsoundDir, hfound⟩, hsoundRest⟩ := List.forall_mem_cons.mp hsound
    obtain ⟨hwithinTurn, hwithinRest⟩ := List.forall_mem_cons.mp hwithin
    rw [components_eq_cons hc, List.cons.injEq] at hnames
    obtain ⟨hname, hrest⟩ := hnames
    have hdrop : (c :: path).drop name.length = (c :: path).dropWhile (· ≠ slash) := by
      rw [← hname]
      exact drop_length_takeWhile (c :: path)
    -- what the two calls of the turn return, on the disk
    have hlookup := dirLookup_of_within hwithinTurn hsoundDir hdir hdelivers hlog
    have hload := @loadInode_of_within fs disk _ hwithinTurn hfound hdelivers hlog
    dsimp only at hlookup hload
    rw [walk_turn]
    simp only [hname, hlookup]
    rcases nextInum_cases fs disk dir inum name with ⟨hnext, hgives⟩ | ⟨err, found, hgoes, herr, hnext⟩
    · rw [hgives, walkDisk, hnext]
      rfl
    -- also where the name is missing: the number that the walk has is loaded
    · obtain ⟨hload, hlnk⟩ := hload hnext
      simp only [hnext] at hsoundRest hwithinRest
      rw [hgoes]
      dsimp only
      rw [if_neg herr, hdrop, nextComponent_turn, hload]
      dsimp only
      rw [if_neg hlnk, walkDisk, hnext]
      dsimp only
      -- this was the last component, or another one starts behind the separators
      rcases dropWhile_component hlast with hend | hlast'
      · rw [hend, components_nil] at hrest
        rw [if_pos hend, if_pos hrest.symm]
      · obtain ⟨c', path', hc', hpath', hlast'⟩ := dropWhile_slash hlast' hslash
        have hne : (c :: path).dropWhile (· ≠ slash) ≠ [] := by
          intro h
          rw [h] at hpath'
          cases hpath'
        rw [← components_dropWhile, hpath'] at hrest
        have hrest' : rest ≠ [] := by
          rw [← hrest, components_eq_cons hc']
          exact List.cons_ne_nil _ _
        rw [if_neg hne, if_neg hrest', hpath']
        split_ifs with hnextDir
        · rw [if_pos hnextDir] at hsoundRest hwithinRest
          exact ih hc' hlast' hrest (by simp at hfuel; omega) hnextDir hsoundRest hwithinRest
        · rfl

/-- **The lookup of a path**, on the disk. -/
theorem Image.lookup {path : List Char8} {inum : ℕ} (h : fs.Image disk path inum)
    (hwithin : ∀ limit, fs.Within disk path inum limit) :
    fs.ext2Lookup path inum = some (fs.walkDisk disk fs.rootInode inum (components path)) := by
  obtain ⟨c, rest, last, hc, hslash, hstart, hlast, hnames⟩ := h.lookable.start
  -- the fuel of `ext2_lookup` is enough for the components of a path of that length
  have hfuel : 2 * (components path).length ≤ 8192 := by
    have := h.lookable.length
    have := length_components_le path
    omega
  rw [ext2Lookup_eq, ext2Walk_eq, if_neg (by norm_num), hstart]
  exact walk_eq h.delivers h.logBlockSize hslash _ hc hlast hnames hfuel h.root h.sound
    fun t ht limit => hwithin limit t ht

/-- Without a buffer the lookup in the root directory has no result. -/
theorem Image.lookupOn_null {path : List Char8} {inum : ℕ} (h : fs.Image disk path inum)
    (hwithin : fs.Within disk path inum .reach) {β : Type} {sbrk : Libc.Sbrk β} {heap : Libc.Data β}
    (hbuf : ¬ Libc.Obtains sbrk heap fs.bufferSize) : fs.ext2LookupOn sbrk heap path inum = none := by
  obtain ⟨c, rest, last, hc, -, hstart, -, hnames⟩ := h.lookable.start
  have hsound := h.sound
  rw [Within] at hwithin
  rw [← hnames, components_eq_cons hc, turns] at hsound hwithin
  obtain ⟨hroot, -⟩ := (List.forall_mem_cons.mp hsound).1
  have hsize : fs.rootInode.size < 2 ^ 31 := (List.forall_mem_cons.mp hwithin).1.1
  have hblock : fs.blockSize ≤ fs.rootInode.size := Nat.le_of_dvd hroot.pos (Nat.dvd_of_mod_eq_zero hroot.whole)
  rw [ext2LookupOn, ext2LookupBy, ext2WalkBy, if_neg (by norm_num), hstart, walkBy,
    ext2DirLookupOn_null h.logBlockSize hbuf h.root hblock hsize]

/-! ## What the walk finds -/

theorem nextInum_of_lookup {dir : Inode} {inum next : ℕ} {name : List Char8}
    (h : lookupEntry disk fs.blockSize dir name = some next) : fs.nextInum disk dir inum name = some next := by
  rw [nextInum, h]

theorem nextInum_of_small {dir : Inode} {inum : ℕ} {name : List Char8}
    (h : lookupEntry disk fs.blockSize dir name = none) (hsmall : dir.size ≤ 1024 * fs.blockSize) :
    fs.nextInum disk dir inum name = some inum := by
  rw [nextInum, h]
  exact if_pos hsmall

theorem missing_of_lookup {dir : Inode} {name : List Char8} {rest : List (List Char8)} (hdir : dir.IsDir)
    (h : lookupEntry disk fs.blockSize dir name = none) (hsmall : dir.size ≤ 1024 * fs.blockSize) :
    fs.Missing disk dir (name :: rest) := by
  rw [Missing, h]
  exact ⟨hdir, hsmall⟩

/-- The walk does not stop at the last component, though it is missing. -/
theorem not_stops_of_small {dir : Inode} {inum : ℕ} {name : List Char8}
    (h : lookupEntry disk fs.blockSize dir name = none) (hsmall : dir.size ≤ 1024 * fs.blockSize) :
    ¬ fs.Stops disk dir inum [name] := by
  rw [Stops, nextInum_of_small h hsmall]
  rintro ⟨hrest, -⟩
  exact hrest rfl

/-- The walk fails where it stops, and nowhere else. -/
theorem walkDisk_neg_iff (names : List (List Char8)) :
    ∀ (dir : Inode) (inum : ℕ), (fs.walkDisk disk dir inum names).1 < 0 ↔ fs.Stops disk dir inum names := by
  induction names with
  | nil =>
    intro dir inum
    simp [walkDisk, Stops]
  | cons name rest ih =>
    intro dir inum
    rw [walkDisk, Stops]
    cases fs.nextInum disk dir inum name with
    | none => exact iff_of_true (show (-1 : Int16) < 0 by decide) trivial
    | some next =>
      dsimp only
      by_cases hrest : rest = []
      · simp [hrest]
      · by_cases hdir : (fs.diskInode disk next).IsDir
        · simp [hrest, hdir, ih]
        · have hneg : errNoEntry < 0 := by decide
          simp [hrest, hdir, hneg]

/-- What the components designate is looked up in a directory, name by name. -/
theorem resolve_cons_eq_some {dir : Inode} {name : List Char8} {rest : List (List Char8)} {found : ℕ} :
    fs.resolve disk dir (name :: rest) = some found ↔
      dir.IsDir ∧ ∃ next, lookupEntry disk fs.blockSize dir name = some next ∧
        (if rest = [] then some next else fs.resolve disk (fs.diskInode disk next) rest) = some found := by
  rw [resolve]
  by_cases hdir : dir.IsDir
  · rw [if_pos hdir, Option.bind_eq_some_iff]
    simp [hdir]
  · simp [hdir]

/-- The walk finds the inode that the components designate, whatever `*inum` held before. -/
theorem walkDisk_of_resolve {found : ℕ} (names : List (List Char8)) :
    ∀ {dir : Inode} {inum : ℕ}, fs.resolve disk dir names = some found →
      fs.walkDisk disk dir inum names = (0, found) := by
  induction names with
  | nil =>
    intro dir inum h
    cases h
  | cons name rest ih =>
    intro dir inum h
    obtain ⟨-, next, hnext, h⟩ := resolve_cons_eq_some.mp h
    rw [walkDisk, nextInum_of_lookup hnext]
    dsimp only
    split_ifs at h with hrest
    · rw [if_pos hrest, Option.some.inj h]
    · have hnextDir : (fs.diskInode disk next).IsDir := by
        -- There is a component to look up in it.
        cases rest with
        | nil => exact absurd rfl hrest
        | cons _ _ => exact (resolve_cons_eq_some.mp h).1
      rw [if_neg hrest, if_pos hnextDir]
      exact ih h

/-- Nothing is missing on a path that designates an inode. -/
theorem not_missing_of_resolve {found : ℕ} (names : List (List Char8)) :
    ∀ {dir : Inode}, fs.resolve disk dir names = some found → ¬ fs.Missing disk dir names := by
  induction names with
  | nil =>
    intro dir h
    cases h
  | cons name rest ih =>
    intro dir h
    obtain ⟨-, next, hnext, h⟩ := resolve_cons_eq_some.mp h
    rw [Missing, hnext]
    rintro ⟨-, hmissing⟩
    split_ifs at h with hrest
    · rw [hrest] at hmissing
      exact hmissing
    · exact ih h hmissing

/-- A path on which nothing is missing designates nothing only if it goes through something that is
not a directory, or through a directory that is not searched to its end. -/
theorem stops_of_resolve_none (names : List (List Char8)) :
    ∀ {dir : Inode} {inum : ℕ}, dir.IsDir → names ≠ [] → fs.resolve disk dir names = none →
      ¬ fs.Missing disk dir names → fs.Stops disk dir inum names := by
  induction names with
  | nil =>
    intro dir inum _ hne
    exact absurd rfl hne
  | cons name rest ih =>
    intro dir inum hdir _ hres hmissing
    rw [resolve, if_pos hdir] at hres
    rw [Missing] at hmissing
    rw [Stops]
    cases hlookup : lookupEntry disk fs.blockSize dir name with
    | none =>
      rw [hlookup] at hmissing
      rw [nextInum, hlookup]
      dsimp only
      rw [if_neg fun hsmall => hmissing ⟨hdir, hsmall⟩]
      trivial
    | some next =>
      rw [hlookup] at hres hmissing
      rw [nextInum_of_lookup hlookup]
      simp only [Option.bind_some] at hres
      split_ifs at hres with hrest
      refine ⟨hrest, or_iff_not_imp_left.mpr fun hnext => ?_⟩
      exact ih (not_not.mp hnext) hrest hres fun h => hmissing ⟨hdir, h⟩

/-- **Within the limits**, a lookup is exact if there is memory for its buffer, and no component is missing or
the walk stops. -/
theorem Image.exact_iff {path : List Char8} {inum : ℕ} (h : fs.Image disk path inum)
    (hwithin : ∀ limit, fs.Within disk path inum limit) {β : Type} (sbrk : Libc.Sbrk β) (heap : Libc.Data β) :
    fs.Exact disk sbrk heap path inum ↔ Libc.Obtains sbrk heap fs.bufferSize ∧
      (¬ fs.Missing disk fs.rootInode (components path) ∨
        fs.Stops disk fs.rootInode inum (components path)) := by
  by_cases hbuf : Libc.Obtains sbrk heap fs.bufferSize
  · rw [Exact, ext2LookupOn_of_obtains hbuf, h.lookup hwithin, and_iff_right hbuf]
    -- A path that designates an inode is found; for the others the walk has to stop.
    cases hres : fs.resolve disk fs.rootInode (components path) with
    | some found =>
      rw [walkDisk_of_resolve _ hres]
      have hmissing := not_missing_of_resolve _ hres
      exact iff_of_true ⟨0, by decide, rfl⟩ (Or.inl hmissing)
    | none =>
      constructor
      · rintro ⟨err, inum', hneg, heq⟩
        refine Or.inr ((walkDisk_neg_iff _ _ _).mp ?_)
        rw [Option.some.inj heq]
        exact hneg
      · intro hcond
        have hstops : fs.Stops disk fs.rootInode inum (components path) := by
          rcases hcond with hmissing | hstops
          · exact stops_of_resolve_none _ h.root h.lookable.components_ne_nil hres hmissing
          · exact hstops
        exact ⟨_, _, (walkDisk_neg_iff _ _ _).mpr hstops, rfl⟩
  · rw [Exact, h.lookupOn_null (hwithin .reach) hbuf]
    refine iff_of_false ?_ fun hcond => hbuf hcond.1
    cases fs.resolve disk fs.rootInode (components path) with
    | some found =>
      rintro ⟨err, -, heq⟩
      cases heq
    | none =>
      rintro ⟨err, inum', -, heq⟩
      cases heq

end Ext2

/-- The disk with the given bytes at the given addresses, and zeros elsewhere. -/
def diskOf (regions : List (ℕ × List UInt8)) (a : ℕ) : UInt8 :=
  match regions.find? fun r => r.1 ≤ a ∧ a < r.1 + r.2.length with
  | some r => r.2.getD (a - r.1) 0
  | none => 0

end I80k.Kernel

import I80k.Lib.Run
import I80k.Libc.PrintfFormat
import I80k.Libc.StringCopy

/-!
# The list of block devices

`blk_register`, `blk_unregister` and `blk_open` of `blkdev.c`, and the names that `mbr_publish_device` of `subdev.c`
gives to partitions. Devices are found by their names, the first one that was registered before the others: so a name is
a queue of the devices that have it.

The name of a partition is that of its disk with a number behind it, in a buffer of 12 bytes. If the name of the disk
leaves no room for the number all partitions have the same name, which is that of the disk if it has 11 characters.

## Main definitions

* `Devices`: the list; `Devices.blkRegister`, `Devices.blkUnregister`, `Devices.blkOpen`
* `subdevName`: the name of a partition, as `snprintf` leaves it
* `Queues`: a queue for each name

## Main results

* `subdevName_eq`: the name of a partition
* `blk_registry_refines`: the list is a queue for each name
* `partition_opens_iff`: the partitions that can be opened
-/

namespace I80k.Kernel

open Libc StepSystem
open StringInstr (Byte Regs)

/-! ## The names of partitions -/

/-- `"%s%d"`, with its zero byte. -/
def subdevFormat : List Byte := [ch '%', ch 's', ch '%', ch 'd', 0]

/-- `name`, after `calloc(12, sizeof(char))` and `snprintf(name, 12, "%s%d", dev->name, index + 1)`. -/
def subdevName (mem : Word → Byte) (regs : Regs) (name : Word) (index : ℕ) : Option (List Byte) :=
  let args : ℕ → Word := fun n => if n = 0 then name else BitVec.ofNat 16 (index + 1)
  (snprintf mem regs args (fun _ => 0) 12 subdevFormat).map fun (buffer, _) =>
    ((List.range 12).map fun i => buffer (BitVec.ofNat 16 i)).takeWhile (· ≠ 0)

/-- The name of a partition. -/
def partName (name : List Byte) (index : ℕ) : List Byte := (name ++ [ch '0' + BitVec.ofNat 8 (index + 1)]).take 11

/-- The bytes of a string. -/
theorem stringBytes_of_string {mem : Word → Byte} {p : Word} {text : List Byte} (h : IsString mem p text) {n : ℕ}
    (hn : text.length < n) : stringBytes mem p n = (text, true) := by
  induction text generalizing p n with
  | nil =>
    obtain ⟨n, rfl⟩ := Nat.exists_eq_add_of_lt hn
    exact if_pos h
  | cons c text ih =>
    obtain ⟨hfirst, hc, hrest⟩ := h
    cases n with
    | zero => exact absurd hn (Nat.not_lt_zero _)
    | succ n =>
      rw [stringBytes, hfirst, if_neg hc, ih hrest (Nat.lt_of_succ_lt_succ hn)]

/-- A number of one digit. -/
theorem integerText_digit {args : ℕ → Word} {index va : ℕ} (hindex : index < 4)
    (hargs : args va = BitVec.ofNat 16 (index + 1)) :
    integerText args (ch 'd') {} 0 0 va = ([ch '0' + BitVec.ofNat 8 (index + 1)], va + 1) := by
  have hflags : integerFlags (ch 'd') {} = (10, {}) := rfl
  have harg : integerArg args true {} va = ((index + 1, false), va + 1) := by
    have hall : ∀ i < 4, ((magnitude (BitVec.ofNat 16 (i + 1))).toNat, decide ((BitVec.ofNat 16 (i + 1)).toInt < 0)) =
        (i + 1, false) := by decide
    change (((magnitude (args va)).toNat, decide ((args va).toInt < 0)), va + 1) = _
    rw [hargs, hall index hindex]
  have htext : ∀ i < 4, numberText (i + 1) false 10 0 0 {} = [ch '0' + BitVec.ofNat 8 (i + 1)] := by decide
  rw [integerText, hflags]
  change (numberText (integerArg args true {} va).1.1 (integerArg args true {} va).1.2 10 0 0 {},
    (integerArg args true {} va).2) = _
  rw [harg, htext index hindex]

/-- The text of the name. -/
theorem formatText_subdev {mem : Word → Byte} {regs : Regs} {args : ℕ → Word} {name : List Byte} {index : ℕ}
    (h : IsString mem (args 0) name) (hindex : index < 4) (hargs : args 1 = BitVec.ofNat 16 (index + 1)) :
    formatText mem regs args 5 subdevFormat 0 = some (name ++ [ch '0' + BitVec.ofNat 8 (index + 1)]) := by
  have hstring : convertText mem regs args (ch 's') {} 0 0 0 = some (name, 1) := by
    have hbytes := stringBytes_of_string h h.length_lt
    change stringText mem regs args {} 0 0 0 = _
    simp only [stringText, Bool.false_eq_true, if_false]
    change (if False ∨ (stringBytes mem (args 0) (2 ^ 16)).2 = true then
      some (padText {} 0 _ (stringBytes mem (args 0) (2 ^ 16)).1, 0 + 1) else none) = _
    rw [hbytes]
    simp [padText, spaces]
  have hnumber : convertText mem regs args (ch 'd') {} 0 0 1 = some ([ch '0' + BitVec.ofNat 8 (index + 1)], 2) :=
    congrArg some (integerText_digit hindex hargs)
  have hd : formatText mem regs args 4 [ch '%', ch 'd', 0] 1 = some [ch '0' + BitVec.ofNat 8 (index + 1)] := by
    change (convertText mem regs args (ch 'd') {} 0 0 1).bind
      (fun r => (formatText mem regs args 3 [0] r.2).map (r.1 ++ ·)) = _
    rw [hnumber]
    rfl
  change (convertText mem regs args (ch 's') {} 0 0 0).bind
    (fun r => (formatText mem regs args 4 [ch '%', ch 'd', 0] r.2).map (r.1 ++ ·)) = _
  rw [hstring, Option.bind_some]
  dsimp only
  rw [hd]
  rfl

/-- The string in a buffer of zeros, after a text was stored there. -/
theorem takeWhile_stored {text : List Byte} (hnul : 0 ∉ text) {n : ℕ} (hn : text.length < n) :
    ((List.range n).map fun i => ((text ++ [0])[i]?).getD 0).takeWhile (· ≠ 0) = text := by
  have hbuffer : ((List.range n).map fun i => ((text ++ [0])[i]?).getD 0) =
      text ++ List.replicate (n - text.length) 0 := by
    apply List.ext_getElem
    · simp only [List.length_map, List.length_range, List.length_append, List.length_replicate]
      omega
    · intro i hi hi'
      rw [List.getElem_map, List.getElem_range]
      by_cases hin : i < text.length
      · rw [List.getElem?_append_left hin, List.getElem_append_left hin, List.getElem?_eq_getElem hin]
        rfl
      · rw [List.getElem_append_right (by omega), List.getElem_replicate]
        by_cases hend : i = text.length
        · simp [hend]
        · rw [List.getElem?_eq_none (by simp; omega)]
          rfl
  have hall : ∀ c ∈ text, decide (c ≠ 0) = true := fun c hc => decide_eq_true fun hzero => hnul (hzero ▸ hc)
  obtain ⟨k, hk⟩ : ∃ k, n - text.length = k + 1 := ⟨n - text.length - 1, by omega⟩
  rw [hbuffer, List.takeWhile_append_of_pos hall, hk, List.replicate_succ, List.takeWhile_cons_of_neg (by simp),
    List.append_nil]

/-- **The name of a partition** is that of its disk and its number, as far as there is room for them. -/
theorem subdevName_eq {mem : Word → Byte} (regs : Regs) {p : Word} {name : List Byte} {index : ℕ}
    (h : IsString mem p name) (hlen : name.length < 0xFFFF) (hindex : index < 4) :
    subdevName mem regs p index = some (partName name index) := by
  let args : ℕ → Word := fun n => if n = 0 then p else BitVec.ofNat 16 (index + 1)
  have htext : formatText mem regs args subdevFormat.length subdevFormat 0 =
      some (name ++ [ch '0' + BitVec.ofNat 8 (index + 1)]) := formatText_subdev h hindex rfl
  obtain ⟨buffer', hsnprintf, -, hbuffer⟩ := snprintf_of_formatText mem regs args (fun _ => 0) 12 htext
  have hdigit : ∀ i < 4, ch '0' + BitVec.ofNat 8 (i + 1) ≠ 0 := by decide
  have hnul : 0 ∉ partName name index := by
    intro hmem
    rcases List.mem_append.mp (List.mem_of_mem_take hmem) with hname | hlast
    · exact (isString_iff.mp h).1 hname
    · exact hdigit index hindex (List.mem_singleton.mp hlast).symm
  have hshort : (partName name index).length < 12 := by
    rw [partName, List.length_take]
    omega
  have hfits : (name ++ [ch '0' + BitVec.ofNat 8 (index + 1)]).length < 0x10000 := by
    rw [List.length_append, List.length_singleton]
    omega
  have hstored : ((List.range 12).map fun i => buffer' (BitVec.ofNat 16 i)) =
      (List.range 12).map fun i => ((partName name index ++ [0])[i]?).getD 0 := by
    refine List.map_congr_left fun i hi => ?_
    have hi : (BitVec.ofNat 16 i).toNat = i := by
      have hlt := List.mem_range.mp hi
      bv_omega
    rw [hbuffer hfits, hi]
    rfl
  change (snprintf mem regs args (fun _ => 0) 12 subdevFormat).map _ = _
  rw [hsnprintf, Option.map_some]
  dsimp only
  rw [hstored, takeWhile_stored hnul hshort]

/-! ## The list -/

/-- The devices that are registered, with their names, in their order. A device is in the list by a node of its own,
so it is registered only while it is not there. -/
abbrev Devices (δ : Type) := List (List Byte × δ)

namespace Devices

variable {δ : Type} (devices : Devices δ)

/-- `blk_dev_add`: the device comes last. -/
def blkDevAdd (name : List Byte) (dev : δ) : Devices δ := devices ++ [(name, dev)]

/-- `blk_open`: the first device with the name. -/
def blkOpen (name : List Byte) : Option δ := (devices.find? (·.1 = name)).map (·.2)

/-- `blk_unregister`: the device, and what is left. -/
def blkUnregister (name : List Byte) : Option δ × Devices δ := (devices.blkOpen name, devices.eraseP (·.1 = name))

/-- `mbr_publish_device`, for an entry that has a device or not. -/
def publish (mem : Word → Byte) (regs : Regs) (p : Word) (parts : ℕ → Option δ) (index : ℕ) : Option (Devices δ) :=
  match parts index with
  | none => some devices
  | some part => (subdevName mem regs p index).map fun name => devices.blkDevAdd name part

/-- `blk_register` of a disk with its name at `p`: the devices of its partitions, as `mbr_probe` makes them of the
entries, are behind it. -/
def blkRegister (mem : Word → Byte) (regs : Regs) (p : Word) (name : List Byte) (disk : δ) (parts : ℕ → Option δ) :
    Option (Devices δ) :=
  (List.range 4).foldlM (fun devices index => devices.publish mem regs p parts index) (devices.blkDevAdd name disk)

end Devices

/-! ## A queue for each name -/

/-- The calls: `blk_dev_add`, as `blk_register` and `blk_register_subdevice` make them, `blk_unregister`, and
`blk_open`. -/
inductive DeviceCall (δ : Type)
  | add (name : List Byte) (dev : δ)
  | unregister (name : List Byte)
  | find (name : List Byte)

/-- The result of a call, and the list after it. -/
def Devices.call {δ : Type} (devices : Devices δ) : DeviceCall δ → Option δ × Devices δ
  | .add name dev => (none, devices.blkDevAdd name dev)
  | .unregister name => devices.blkUnregister name
  | .find name => (devices.blkOpen name, devices)

/-- The devices of each name, the oldest first. -/
abbrev Queues (δ : Type) : Type := List Byte → List δ

/-- The same calls of queues. -/
def Queues.call {δ : Type} (queues : Queues δ) : DeviceCall δ → Option δ × Queues δ
  | .add name dev => (none, Function.update queues name (queues name ++ [dev]))
  | .unregister name => ((queues name).head?, Function.update queues name (queues name).tail)
  | .find name => ((queues name).head?, queues)

/-- The devices of a name in a list. -/
def Devices.queues {δ : Type} (devices : Devices δ) : Queues δ :=
  fun name => (devices.filter (·.1 = name)).map (·.2)

section Queues

variable {δ : Type} {devices : Devices δ}

theorem Devices.blkOpen_eq (name : List Byte) : devices.blkOpen name = (devices.queues name).head? := by
  rw [blkOpen, queues, List.head?_map, List.head?_filter]

theorem Devices.queues_blkDevAdd (name : List Byte) (dev : δ) :
    (devices.blkDevAdd name dev).queues = Function.update devices.queues name (devices.queues name ++ [dev]) := by
  funext other
  by_cases heq : other = name
  · subst heq
    simp [queues, blkDevAdd]
  · simp [queues, blkDevAdd, Function.update_of_ne heq, Ne.symm heq]

theorem Devices.queues_blkUnregister (name : List Byte) :
    (devices.blkUnregister name).2.queues = Function.update devices.queues name (devices.queues name).tail := by
  funext other
  change ((devices.eraseP (·.1 = name)).filter (·.1 = other)).map (·.2) = _
  by_cases heq : other = name
  · -- the first device of the name is taken off
    subst heq
    rw [Function.update_self, queues]
    induction devices with
    | nil => rfl
    | cons entry devices ih =>
      by_cases hentry : entry.1 = other
      · simp [hentry]
      · simp [hentry, ih]
  · rw [Function.update_of_ne heq, queues]
    induction devices with
    | nil => rfl
    | cons entry devices ih =>
      by_cases hentry : entry.1 = name
      · simp [hentry, Ne.symm heq]
      · by_cases hother : entry.1 = other
        · simp [hother, heq, ih]
        · simp [hentry, hother, ih]

/-- A call has the same result, and leaves the same queues. -/
theorem Devices.call_queues (devices : Devices δ) (queues : Queues δ) (call : DeviceCall δ)
    (h : queues = devices.queues) :
    (devices.call call).1 = (queues.call call).1 ∧ (queues.call call).2 = (devices.call call).2.queues := by
  subst h
  cases call with
  | add name dev => exact ⟨rfl, (queues_blkDevAdd name dev).symm⟩
  | unregister name => exact ⟨blkOpen_eq name, (queues_blkUnregister name).symm⟩
  | find name => exact ⟨blkOpen_eq name, rfl⟩

/-- **The list of devices is a queue for each name**: along every sequence of calls, opening a name gives the device
that was registered with it before the others and not taken off since, and taking a name off gives the same device. -/
theorem blk_registry_refines {δ : Type} (devices : Devices δ) (calls : List (DeviceCall δ)) :
    trace Devices.call devices calls = trace Queues.call devices.queues calls :=
  trace_eq_of_bisim Devices.call_queues rfl calls

end Queues

/-! ## Opening partitions -/

section Partitions

variable {δ : Type} {mem : Word → Byte} {p : Word} {name : List Byte}

/-- What `blk_register` adds: the disk, and the partitions of the entries that have one. -/
theorem Devices.blkRegister_eq (regs : Regs) (h : IsString mem p name) (hlen : name.length < 0xFFFF)
    (devices : Devices δ) (disk : δ) (parts : ℕ → Option δ) :
    devices.blkRegister mem regs p name disk parts =
      some (devices ++ (name, disk) :: (List.range 4).filterMap fun i => (parts i).map (partName name i, ·)) := by
  have hpublish : ∀ (l : List ℕ) (devices : Devices δ), (∀ i ∈ l, i < 4) →
      l.foldlM (fun devices i => devices.publish mem regs p parts i) devices =
        some (devices ++ l.filterMap fun i => (parts i).map (partName name i, ·)) := by
    intro l
    induction l with
    | nil => simp
    | cons i l ih =>
      intro devices hl
      rw [List.foldlM_cons, publish, List.filterMap_cons]
      cases hpart : parts i with
      | none =>
        rw [Option.map_none]
        exact ih devices fun j hj => hl j (List.mem_cons_of_mem i hj)
      | some part =>
        rw [subdevName_eq regs h hlen (hl i List.mem_cons_self), Option.map_some]
        change l.foldlM _ (devices.blkDevAdd (partName name i) part) = _
        rw [ih _ fun j hj => hl j (List.mem_cons_of_mem i hj), blkDevAdd]
        simp
  rw [blkRegister, hpublish _ _ fun i hi => List.mem_range.mp hi, blkDevAdd]
  simp

/-- A device is found, under some name, if none before it has its name. -/
theorem Devices.exists_blkOpen_iff {before after : Devices δ} {dev : δ} (hbefore : ∀ e ∈ before, e.2 ≠ dev)
    (hafter : ∀ e ∈ after, e.2 ≠ dev) :
    (∃ n, Devices.blkOpen (before ++ (name, dev) :: after) n = some dev) ↔ ∀ e ∈ before, e.1 ≠ name := by
  constructor
  · rintro ⟨n, hopen⟩ e he hname
    obtain ⟨found, hfound, hdev⟩ := Option.map_eq_some_iff.mp hopen
    have hn : found.1 = n := by simpa using List.find?_some hfound
    -- what was found is the device itself, and so its name is the one looked for
    have hself : found = (name, dev) := by
      rcases List.mem_append.mp (List.mem_of_find?_eq_some hfound) with hmem | hmem
      · exact absurd hdev (hbefore found hmem)
      · rcases List.mem_cons.mp hmem with heq | hmem
        · exact heq
        · exact absurd hdev (hafter found hmem)
    have hsome : (before.find? (·.1 = n)).isSome = true := by
      rw [List.find?_isSome]
      exact ⟨e, he, by simp [hname, ← hn, hself]⟩
    obtain ⟨first, hfirst⟩ := Option.isSome_iff_exists.mp hsome
    rw [List.find?_append, hfirst, Option.some_or] at hfound
    exact hbefore first (List.mem_of_find?_eq_some hfirst) (Option.some.inj hfound ▸ hdev)
  · intro hname
    refine ⟨name, ?_⟩
    have hnone : before.find? (·.1 = name) = none := by
      rw [List.find?_eq_none]
      simpa using hname
    rw [blkOpen, List.find?_append, hnone, Option.none_or, List.find?_cons_of_pos (by simp)]
    rfl

/-- Names with room for a number behind them. -/
theorem partName_of_short (h : name.length ≤ 10) (index : ℕ) :
    partName name index = name ++ [ch '0' + BitVec.ofNat 8 (index + 1)] := by
  apply List.take_of_length_le
  rw [List.length_append, List.length_singleton]
  omega

/-- And names without. -/
theorem partName_of_long (h : 11 ≤ name.length) (index : ℕ) : partName name index = name.take 11 :=
  List.take_append_of_le_length h

/-- A partition has the name of the disk if this has 11 characters. -/
theorem partName_eq_disk (index : ℕ) : name = partName name index ↔ name.length = 11 := by
  rcases Nat.lt_or_ge name.length 11 with hshort | hlong
  · rw [partName_of_short (Nat.le_of_lt_succ hshort)]
    simp
    omega
  · rw [partName_of_long hlong, eq_comm, List.take_eq_self_iff]
    omega

/-- Partitions have the same name if there is no room for their numbers. -/
theorem partName_eq_iff {i j : ℕ} (hi : i < 4) (hj : j < 4) (hne : j ≠ i) :
    partName name j = partName name i ↔ 11 ≤ name.length := by
  have hdigits : ∀ i < 4, ∀ j < 4, ch '0' + BitVec.ofNat 8 (j + 1) = ch '0' + BitVec.ofNat 8 (i + 1) → j = i := by
    decide
  rcases Nat.lt_or_ge name.length 11 with hshort | hlong
  · rw [partName_of_short (Nat.le_of_lt_succ hshort), partName_of_short (Nat.le_of_lt_succ hshort),
      List.append_cancel_left_eq, List.singleton_inj]
    exact iff_of_false (fun h => hne (hdigits i hi j hj h)) (by omega)
  · rw [partName_of_long hlong, partName_of_long hlong]
    exact iff_of_true rfl hlong

/-- **The partitions that can be opened.** After `blk_register` of a disk whose name has `n` characters, the partition
of an entry is found under some name if, and only if, `n` is at most 10, or it is not 11 and the partition is the first
one of the disk. -/
theorem partition_opens_iff (regs : Regs) (h : IsString mem p name) (hlen : name.length < 0xFFFF)
    (before : Devices δ) (disk : δ) (parts : ℕ → Option δ) {i : ℕ} (hi : i < 4) {part : δ} (hpart : parts i = some part)
    (hfresh : ∀ e ∈ before, e.1 ≠ partName name i ∧ e.2 ≠ part) (hdisk : disk ≠ part)
    (hparts : ∀ j < 4, parts j = some part → j = i) :
    ∃ devices, before.blkRegister mem regs p name disk parts = some devices ∧
      ((∃ n, Devices.blkOpen devices n = some part) ↔
        name.length ≤ 10 ∨ name.length ≠ 11 ∧ ∀ j < i, parts j = none) := by
  refine ⟨_, Devices.blkRegister_eq regs h hlen before disk parts, ?_⟩
  obtain ⟨k, hk⟩ : ∃ k, 4 = i + (k + 1) := ⟨3 - i, by omega⟩
  let entry (j : ℕ) : Option (List Byte × δ) := (parts j).map (partName name j, ·)
  have hother : ∀ j < 4, j ≠ i → ∀ e ∈ entry j, e.2 ≠ part := by
    rintro j hj hne e he rfl
    obtain ⟨part', hpart', rfl⟩ := Option.map_eq_some_iff.mp he
    exact hne (hparts j hj hpart')
  -- the list, split at the partition
  have hsplit : before ++ (name, disk) :: (List.range 4).filterMap entry =
      (before ++ (name, disk) :: (List.range i).filterMap entry) ++
        (partName name i, part) :: ((List.range k).map (i + 1 + ·)).filterMap entry := by
    have hrange : List.range 4 = List.range i ++ i :: (List.range k).map (i + 1 + ·) := by
      have htail : (List.range k).map ((i + ·) ∘ Nat.succ) = (List.range k).map (i + 1 + ·) :=
        List.map_congr_left fun j _ => by simp only [Function.comp_apply]; omega
      rw [hk, List.range_add, List.range_succ_eq_map, List.map_cons, List.map_map, htail, Nat.add_zero]
    have hentry : entry i = some (partName name i, part) := congrArg (Option.map _) hpart
    rw [hrange, List.filterMap_append, List.filterMap_cons, hentry, List.append_assoc, List.cons_append]
  change (∃ n, Devices.blkOpen (before ++ (name, disk) :: (List.range 4).filterMap entry) n = some part) ↔ _
  rw [hsplit, Devices.exists_blkOpen_iff]
  · -- the names before that of the partition
    have hnames : (∀ e ∈ before ++ (name, disk) :: (List.range i).filterMap entry, e.1 ≠ partName name i) ↔
        name.length ≠ 11 ∧ ∀ j < i, parts j ≠ none → ¬ 11 ≤ name.length := by
      constructor
      · intro hall
        refine ⟨fun hlen => ?_, fun j hj hsome hlong => ?_⟩
        · exact hall (name, disk) (by simp) ((partName_eq_disk i).mpr hlen)
        · obtain ⟨part', hpart'⟩ := Option.ne_none_iff_exists'.mp hsome
          have hmem : (partName name j, part') ∈ (List.range i).filterMap entry :=
            List.mem_filterMap.mpr ⟨j, List.mem_range.mpr hj, congrArg (Option.map _) hpart'⟩
          exact hall _ (List.mem_append_right _ (List.mem_cons_of_mem _ hmem))
            ((partName_eq_iff hi (by omega) (by omega)).mpr hlong)
      · rintro ⟨hlen, hall⟩ e he
        rcases List.mem_append.mp he with hbefore | hafter
        · exact (hfresh e hbefore).1
        · rcases List.mem_cons.mp hafter with rfl | hmem
          · exact fun hname => hlen ((partName_eq_disk i).mp hname)
          · obtain ⟨j, hj, hentry⟩ := List.mem_filterMap.mp hmem
            obtain ⟨part', hpart', rfl⟩ := Option.map_eq_some_iff.mp hentry
            have hlt := List.mem_range.mp hj
            have hsome : parts j ≠ none := by simp [hpart']
            exact fun hname => hall j hlt hsome ((partName_eq_iff hi (by omega) (by omega)).mp hname)
    rw [hnames]
    constructor
    · rintro ⟨hne, hall⟩
      by_cases hshort : name.length ≤ 10
      · exact .inl hshort
      · exact .inr ⟨hne, fun j hj => by_contra fun hnone => hall j hj hnone (by omega)⟩
    · rintro (hshort | ⟨hne, hall⟩)
      · exact ⟨by omega, fun j _ _ => by omega⟩
      · exact ⟨hne, fun j hj hsome => absurd (hall j hj) hsome⟩
  · intro e he
    rcases List.mem_append.mp he with hbefore | hafter
    · exact (hfresh e hbefore).2
    · rcases List.mem_cons.mp hafter with rfl | hmem
      · exact hdisk
      · obtain ⟨j, hj, hentry⟩ := List.mem_filterMap.mp hmem
        have hlt := List.mem_range.mp hj
        exact hother j (by omega) (by omega) e hentry
  · intro e he
    obtain ⟨j, hj, hentry⟩ := List.mem_filterMap.mp he
    obtain ⟨m, hm, rfl⟩ := List.mem_map.mp hj
    have hlt := List.mem_range.mp hm
    exact hother (i + 1 + m) (by omega) (by omega) e hentry

/-- The name of a disk, with 12 characters. -/
def compactflash : List Byte :=
  [ch 'c', ch 'o', ch 'm', ch 'p', ch 'a', ch 'c', ch 't', ch 'f', ch 'l', ch 'a', ch 's', ch 'h']

/-- Of two partitions of this disk the first one can be opened, and the second one cannot. -/
theorem partition_opens_compactflash :
    ∃ devices, Devices.blkRegister [([ch 's', ch 'd', ch 'a'], 9)] (fun a => compactflash.getD a.toNat 0)
        ⟨0, 0, 0, 0, 0, 0, false, []⟩ 0 compactflash 0 (fun i => if i < 2 then some (i + 1) else none) = some devices ∧
      (∃ n, Devices.blkOpen devices n = some 1) ∧ ¬ ∃ n, Devices.blkOpen devices n = some 2 := by
  have hname : IsString (fun a => compactflash.getD a.toNat 0) 0 compactflash := by decide
  obtain ⟨devices, hdevices, hfirst⟩ := partition_opens_iff (δ := ℕ) ⟨0, 0, 0, 0, 0, 0, false, []⟩ hname (by decide)
    [([ch 's', ch 'd', ch 'a'], 9)] 0 (fun i => if i < 2 then some (i + 1) else none) (i := 0) (by decide) rfl
    (by decide) (by decide) (by decide)
  obtain ⟨devices', hdevices', hsecond⟩ := partition_opens_iff (δ := ℕ) ⟨0, 0, 0, 0, 0, 0, false, []⟩ hname (by decide)
    [([ch 's', ch 'd', ch 'a'], 9)] 0 (fun i => if i < 2 then some (i + 1) else none) (i := 1) (by decide) rfl
    (by decide) (by decide) (by decide)
  obtain rfl := Option.some.inj (hdevices.symm.trans hdevices')
  refine ⟨devices, hdevices, hfirst.mpr (Or.inr ⟨by decide, by simp⟩), fun hopen => ?_⟩
  rcases hsecond.mp hopen with hshort | ⟨-, hnone⟩
  · exact absurd hshort (by decide)
  · exact absurd (hnone 0 (by decide)) (by decide)

end Partitions

end I80k.Kernel

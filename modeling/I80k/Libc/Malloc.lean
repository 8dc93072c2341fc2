import I80k.Lib.Run
import I80k.Lib.Chain

/-!
# The buddy allocator of the C library

`libc/malloc.c` on the 16-bit target. Pointers, `size_t` and `int` are 16-bit words. The free
blocks of size `2 ^ index` are chained from `fb_table[index]` through their own first word, and
an allocated block begins with the word that holds its size: both live in the memory that the
allocator hands out. The heap grows through `sbrk`, which is a parameter here, because the two
images that link this file implement it differently.

## Main definitions

* `Data β`: the globals of the allocator, the memory, and the state `β` of the `sbrk` it calls
* `getindex`, `getbuddy`, `fbAdd`, `fbPop`, `fbRemove`: the functions of `malloc.c`
* `malloc`, `free`: the interface; `none` is a call that does not return
* `Client`, `Op`, `step`: a client of an allocator whose `sbrk` extends the heap contiguously
-/

namespace I80k.Libc

/-- A near pointer, a `size_t` or an `int` of the 16-bit target. -/
abbrev Word := BitVec 16

/-- `MAX_INDEX`. -/
def maxIndex : ℕ := 12

/-- `PAGE_SIZE`, the maximum allocable size at once. -/
def pageSize : Word := 1 <<< maxIndex

/-- `MIN_SIZE`, the minimum memory block size. -/
def minSize : Word := 8

/-- `sizeof(struct block_header)`, which is also `offsetof(struct block_header, mem)`. -/
def headerSize : Word := 2

/-- The loop `while (sz < bound) { sz = sz << 1; index++; }`. The shift drops the top bit, so past
`2 ^ 15` the size is `0` and stays so: running out of `fuel` is not returning. -/
def doubleUntil (bound : Word) : ℕ → Word → ℕ → Option ℕ
  | 0, _, _ => none
  | fuel + 1, sz, index =>
    if sz < bound then doubleUntil bound fuel (sz <<< 1) (index + 1) else some index

/-- The index of a block of size `size`. -/
def getindex (size : Word) : Option ℕ := do
  let minIndex ← doubleUntil minSize 17 1 0
  doubleUntil size 17 minSize minIndex

/-- The globals of `malloc.c`, the words of the data segment and the state of `sbrk`. The word at an
address is read and written only at the start of a block, and blocks are at least 8 bytes
apart. -/
structure Data (β : Type) where
  /-- `char *heap`, null until the first allocation. -/
  heap : Word
  /-- `int heap_size`. -/
  heapSize : Word
  /-- `fb_table[index].next`. -/
  fbTable : ℕ → Word
  mem : Word → Word
  brk : β

/-- The type of `sbrk`: it may change any of the data, and returns an address or `(void *)-1`. -/
abbrev Sbrk (β : Type) := Data β → Word → Data β × Word

variable {β : Type}

/-- The address of the buddy of the block of index `index` at `addr`. -/
def getbuddy (s : Data β) (index : ℕ) (addr : Word) : Word :=
  s.heap + (1 <<< index ^^^ (addr - s.heap))

/-- Adds a free block of size `2 ^ index` starting at `address`. -/
def fbAdd (s : Data β) (index : ℕ) (address : Word) : Data β :=
  { s with
    mem := Function.update s.mem address (s.fbTable index)
    fbTable := Function.update s.fbTable index address }

/-- Removes a block of size `2 ^ index`, null if there is none. -/
def fbPop (s : Data β) (index : ℕ) : Data β × Word :=
  let block := s.fbTable index
  if block ≠ 0 then
    ({ s with fbTable := Function.update s.fbTable index (s.mem block) }, block)
  else (s, block)

/-- Where a `next` field is: in the table or in a free block. -/
inductive Field
  | table (index : ℕ)
  | block (address : Word)

/-- Reads a `next` field. -/
def Data.next (s : Data β) : Field → Word
  | .table index => s.fbTable index
  | .block address => s.mem address

/-- Writes a `next` field. -/
def Data.setNext (s : Data β) : Field → Word → Data β
  | .table index, v => { s with fbTable := Function.update s.fbTable index v }
  | .block address, v => { s with mem := Function.update s.mem address v }

/-- The loop `while (block->next != NULL && block->next != address) block = block->next;`. -/
def fbFind (s : Data β) (address : Word) : ℕ → Field → Option Field
  | 0, _ => none
  | fuel + 1, block =>
    if s.next block ≠ 0 ∧ s.next block ≠ address then
      fbFind s address fuel (.block (s.next block))
    else some block

/-- Removes the free block of index `index` at `address`, and tells whether it was there. There are
fewer than `2 ^ 16` non-null addresses, so running out of fuel is going round a cycle. -/
def fbRemove (s : Data β) (index : ℕ) (address : Word) : Option (Data β × Bool) := do
  let block ← fbFind s address (2 ^ 16) (.table index)
  if s.next block = address then
    return (s.setNext block (s.mem (s.next block)), true)
  else return (s, false)

/-- The loop `zone = fb_pop(i); while (zone == NULL && i < MAX_INDEX) zone = fb_pop(++i);` from
`i = MAX_INDEX - n`: the block found and its index. -/
def popSmallest : ℕ → Data β → ℕ → Data β × Word × ℕ
  | 0, s, i => ((fbPop s i).1, (fbPop s i).2, i)
  | n + 1, s, i =>
    if (fbPop s i).2 = 0 then popSmallest n (fbPop s i).1 (i + 1)
    else ((fbPop s i).1, (fbPop s i).2, i)

/-- The loop `while (i-- > index) fb_add(i, getbuddy(i, zone));`. -/
def splitDown (index : ℕ) (zone : Word) : ℕ → Data β → Data β
  | 0, s => s
  | i + 1, s =>
    if index < i + 1 then splitDown index zone i (fbAdd s i (getbuddy s i zone)) else s

/-- The end of `malloc`: divides the block of index `i` at `zone` until it has the index `index`,
and prepares its header. -/
def carve (s : Data β) (zone : Word) (i index : ℕ) (fullSize : Word) : Data β × Word :=
  let s := splitDown index zone i s
  ({ s with mem := Function.update s.mem zone fullSize }, zone + headerSize)

/-- Initializes the heap if this is the first time. -/
def initHeap (sbrk : Sbrk β) (s : Data β) : Data β :=
  if s.heap = 0 then { (sbrk s 0).1 with heap := (sbrk s 0).2 } else s

/-- A pointer to `size` bytes, or null. -/
def malloc (sbrk : Sbrk β) (s : Data β) (size : Word) : Option (Data β × Word) :=
  if size = 0 then some (s, 0)
  else
    let s := initHeap sbrk s
    let fullSize := size + headerSize
    (getindex fullSize).bind fun index =>
      if maxIndex < index then some (s, 0)
      else
        let (s, zone, i) := popSmallest (maxIndex - index) s index
        if zone = 0 then
          let (s, start) := sbrk s pageSize
          if start = -1 then some (s, 0)
          else
            some (carve { s with heapSize := s.heapSize + pageSize } (s.heap + s.heapSize) maxIndex
              index fullSize)
        else some (carve s zone i index fullSize)

section Cases

variable {sbrk : Sbrk β} {s s' : Data β} {size zone : Word} {index i : ℕ}

/-- `malloc` when a free block is large enough. -/
theorem malloc_of_pop (h₀ : size ≠ 0) (hi : getindex (size + headerSize) = some index)
    (hle : index ≤ maxIndex)
    (hp : popSmallest (maxIndex - index) (initHeap sbrk s) index = (s', zone, i)) (hz : zone ≠ 0) :
    malloc sbrk s size = some (carve s' zone i index (size + headerSize)) := by
  simp only [malloc, if_neg h₀, hi, Option.bind_some, if_neg (not_lt.mpr hle), hp, if_neg hz]

/-- `malloc` when no free block is large enough: it asks for a page. -/
theorem malloc_of_sbrk (h₀ : size ≠ 0) (hi : getindex (size + headerSize) = some index)
    (hle : index ≤ maxIndex)
    (hp : popSmallest (maxIndex - index) (initHeap sbrk s) index = (s', 0, i)) :
    malloc sbrk s size =
      if (sbrk s' pageSize).2 = -1 then some ((sbrk s' pageSize).1, 0)
      else some (carve
        { (sbrk s' pageSize).1 with heapSize := (sbrk s' pageSize).1.heapSize + pageSize }
        ((sbrk s' pageSize).1.heap + (sbrk s' pageSize).1.heapSize) maxIndex index
        (size + headerSize)) := by
  simp only [malloc, if_neg h₀, hi, Option.bind_some, if_neg (not_lt.mpr hle), hp, if_true]

end Cases

/-- The loop `while (i < MAX_INDEX && fb_remove(i, buddy))` of `free`, from `i = MAX_INDEX - n`: the
index and the address of the merged block. -/
def mergeUp : ℕ → Data β → ℕ → Word → Word → Option (Data β × ℕ × Word)
  | 0, s, i, zone, _ => some (s, i, zone)
  | n + 1, s, i, zone, buddy =>
    (fbRemove s i buddy).bind fun (s, removed) =>
      if removed then
        let zone := if zone ≤ buddy then zone else buddy
        mergeUp n s (i + 1) zone (getbuddy s (i + 1) zone)
      else some (s, i, zone)

/-- Frees the memory pointed to by `ptr`. -/
def free (s : Data β) (ptr : Word) : Option (Data β) :=
  if ptr = 0 then some s
  else
    let zone := ptr - headerSize
    (getindex (s.mem zone)).bind fun i =>
      (mergeUp (maxIndex - i) s i zone (getbuddy s i zone)).map fun (s, i, zone) => fbAdd s i zone

/-! ## Clients of a contiguous heap -/

/-- An `sbrk` whose state is the break, as an exact integer: a positive increment is refused, or
extends the heap up to the end of the address space at most; `sbrk(0)` is the break. -/
def contiguousSbrk (grant : Bool) : Sbrk ℕ := fun s increment =>
  if increment = 0 then (s, BitVec.ofNat 16 s.brk)
  else if grant ∧ s.brk + increment.toNat ≤ 2 ^ 16 then
    ({ s with brk := s.brk + increment.toNat }, BitVec.ofNat 16 s.brk)
  else (s, -1)

/-- The allocator and its client: the pointers it holds, with the sizes it asked for. -/
structure Client extends Data ℕ where
  live : List (Word × Word)

/-- What a client does: `malloc(size)`, where `grant` is the answer of the system to `sbrk(4096)` if
it comes to that; `free(ptr)`; a store to memory it was given. -/
inductive Op
  | malloc (size : Word) (grant : Bool)
  | free (ptr : Word)
  | store (address value : Word)

/-- The operations of a correct client: sizes from 1 to 4094, and pointers it holds. -/
def Client.Admits (c : Client) : Op → Prop
  | .malloc size _ => 1 ≤ size ∧ size ≤ 4094
  | .free ptr => ∃ b ∈ c.live, b.1 = ptr
  | .store address _ => ∃ b ∈ c.live, b.1 ≤ address ∧ address.toNat < b.1.toNat + b.2.toNat

instance (c : Client) : DecidablePred c.Admits
  | .malloc _ _ => inferInstanceAs (Decidable (_ ∧ _))
  | .free _ => inferInstanceAs (Decidable (∃ b ∈ c.live, _))
  | .store _ _ => inferInstanceAs (Decidable (∃ b ∈ c.live, _))

/-- The operation takes effect; `none` if the call does not return. -/
def Client.exec (c : Client) : Op → Option Client
  | .malloc size grant =>
    (Libc.malloc (contiguousSbrk grant) c.toData size).map fun (s, ptr) =>
      { s with live := if ptr = 0 then c.live else (ptr, size) :: c.live }
  | .free ptr =>
    (Libc.free c.toData ptr).map fun s =>
      { s with live := c.live.eraseP fun b => b.1 = ptr }
  | .store address value =>
    some { c with mem := Function.update c.mem address value }

/-- One operation of a correct client. -/
def Client.step (c : Client) (op : Op) : Option Client :=
  if c.Admits op then c.exec op else none

/-- The allocator before its first use, the break at `base`. -/
def Client.init (base : Word) (mem : Word → Word) : Client where
  heap := 0
  heapSize := 0
  fbTable := fun _ => 0
  mem := mem
  brk := base.toNat
  live := []

end I80k.Libc

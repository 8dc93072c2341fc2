import I80k.Kernel.Word
import I80k.Lib.Run

/-!
# The page allocator

`page.c` hands out areas of `2 ^ order` pages of 1 KiB. Free areas are on one list for each order, and
have a magic number in their third double word; two halves of an area are buddies. A far pointer is the
number `segment * 2 ^ 16 + offset`; it stands for the byte at `segment * 16 + offset` of the memory.

The lists go through the free areas, and are modelled by the sequences of their areas. There are lists
for the orders below 7 only: a function that goes to another one has no result, and neither has one that
writes through a null pointer.

## Main definitions

* `Page`, `Pages`: an area that was handed out, and the data of `page.c` with the memory
* `pageBuddy`: the buddy of an area, in the arithmetic of the target
* `Pages.pageAlloc`, `Pages.pageFree`, `Pages.pageAdd`
* `Pages.step`: a call of the allocator, or a store to an area that was handed out
-/

namespace I80k.Kernel

/-- `PAGE_SHIFT`. -/
def pageShift : ℕ := 10

/-- `PAGE_MAGIC`. -/
def pageMagic : ℕ := 0xDEAD5A5A

/-- `MAX_ORDER`. -/
def maxOrder : ℕ := 7

/-- `struct page`. -/
structure Page where
  addr : ℕ
  order : ℕ
  deriving DecidableEq, Repr

/-- The lists `free_areas`, the pages that were handed out, and the bytes of the memory. -/
structure Pages where
  freeAreas : ℕ → List ℕ
  allocated : List Page
  mem : ℕ → UInt8

/-- The address on the bus that a far pointer stands for. -/
def linear (addr : ℕ) : ℕ := (addr / 2 ^ 16 * 16 + addr % 2 ^ 16) % 2 ^ 20

/-- `1 << shift`, in an `int`, and converted to `uint32_t`: the bit 15 is the sign, and a bit beyond it
is shifted out, as the 8086 does. The orders from 6 on have such shifts. -/
def oneShl (shift : ℕ) : ℕ :=
  if shift < 15 then 2 ^ shift else if shift = 15 then 2 ^ 32 - 2 ^ 15 else 0

/-- The other half of the area of the next order, in the segment of the area. -/
def pageBuddy (addr order : ℕ) : ℕ :=
  let base := addr / 2 ^ 16 * 2 ^ 16
  toUint32 (base + (oneShl (toUint (order + pageShift)) ^^^ (addr - base)))

namespace Pages

/-- The field `magic` of an area. -/
def magic (s : Pages) (addr : ℕ) : ℕ :=
  (s.mem (linear addr + 8)).toNat + 2 ^ 8 * (s.mem (linear addr + 9)).toNat +
    2 ^ 16 * ((s.mem (linear addr + 10)).toNat + 2 ^ 8 * (s.mem (linear addr + 11)).toNat)

/-- Writes the field `magic` of an area. -/
def setMagic (s : Pages) (addr value : ℕ) : Pages :=
  { s with mem := fun a =>
      if linear addr + 8 ≤ a ∧ a < linear addr + 12 then
        UInt8.ofNat (value / 2 ^ (8 * (a - (linear addr + 8))))
      else s.mem a }

/-- Puts other areas on the list of an order. -/
def setList (s : Pages) (order : ℕ) (areas : List ℕ) : Pages :=
  { s with freeAreas := Function.update s.freeAreas order areas }

/-- Puts an area in front of its list. -/
def pagePush (s : Pages) (addr order : ℕ) : Option Pages :=
  if maxOrder ≤ order then none
  else some ((s.setMagic addr pageMagic).setList order (addr :: s.freeAreas order))

/-- Puts an area at the end of its list. -/
def pageQueue (s : Pages) (addr order : ℕ) : Option Pages :=
  if maxOrder ≤ order then none
  else some ((s.setMagic addr pageMagic).setList order (s.freeAreas order ++ [addr]))

/-- Takes the first area of a list, if there is one. -/
def pagePop (s : Pages) (order : ℕ) : Option (Option ℕ × Pages) :=
  if maxOrder ≤ order then none
  else
    match s.freeAreas order with
    | [] => some (none, s)
    | zone :: rest => some (some zone, (s.setList order rest).setMagic zone 0)

/-- The first loop of `page_alloc`, for at most `fuel` turns: the area that it finds, and its order. -/
def popLoop : ℕ → Option ℕ → ℕ → Pages → Option (Option ℕ × ℕ × Pages)
  | 0, zone, index, s => some (zone, index, s)
  | fuel + 1, zone, index, s =>
    if zone = none ∧ index < maxOrder then do
      let (zone, s) ← s.pagePop (index + 1)
      popLoop fuel zone (index + 1) s
    else some (zone, index, s)

/-- The second loop of `page_alloc`, for at most `fuel` turns. The index is a `size_t`. -/
def splitLoop (zone order : ℕ) : ℕ → ℕ → Pages → Option Pages
  | 0, _, s => some s
  | fuel + 1, index, s =>
    let index := toUint (index + (2 ^ 16 - 1))
    if order < index then do
      let s ← s.pagePush (pageBuddy zone index) index
      splitLoop zone order fuel index s
    else some s

/-- Hands out an area. Whether there is memory for the `struct page` is `calloc`. -/
def pageAlloc (s : Pages) (order : ℕ) (calloc : Bool) : Option (Option Page × Pages) :=
  if maxOrder ≤ order then some (none, s)
  else do
    let (zone, s) ← s.pagePop order
    let (zone, index, s) ← popLoop maxOrder zone order s
    match zone with
    | none => some (none, s)
    | some zone =>
      let s ← splitLoop zone order maxOrder index s
      if calloc then some (some ⟨zone, order⟩, { s with allocated := ⟨zone, order⟩ :: s.allocated })
      else none

/-- The loop of `page_free`, for at most `fuel` turns: the address and the order. -/
def mergeLoop : ℕ → ℕ → ℕ → ℕ → ℕ × ℕ
  | 0, addr, _, order => (addr, order)
  | fuel + 1, addr, buddy, order =>
    if order < maxOrder then
      let addr := if addr ≤ buddy then addr else buddy
      mergeLoop fuel addr (pageBuddy addr (order + 1)) (order + 1)
    else (addr, order)

/-- Takes an area back. -/
def pageFree (s : Pages) (p : Page) : Option Pages :=
  let s := { s with allocated := s.allocated.erase p }
  let buddy := pageBuddy p.addr p.order
  if s.magic buddy ≠ pageMagic then s.pagePush p.addr p.order
  else
    let (addr, order) := mergeLoop maxOrder p.addr buddy p.order
    s.pagePush addr order

/-- Adds an area. -/
def pageAdd (s : Pages) (area order : ℕ) : Option Pages :=
  if maxOrder ≤ order then some s else s.pageQueue area order

/-- `page_initialize`, with whatever is in the memory. -/
def pageInitialize (mem : ℕ → UInt8) : Pages := ⟨fun _ => [], [], mem⟩

/-- `mem_initialize`, for the given segments. -/
def memInitialize (mem : ℕ → UInt8) (segments : List ℕ) : Option Pages :=
  segments.foldlM (fun s segment => s.pageAdd (segment * 2 ^ 16) 6) (pageInitialize mem)

/-- What can happen. -/
inductive Op
  | alloc (order : ℕ) (calloc : Bool)
  | free (p : Page)
  | store (p : Page) (i : ℕ) (value : UInt8)

/-- A call of the allocator, or a store to byte `i` of a page. Only pages that are handed out are freed,
and stored to. After a call without a result there is nothing to be said. -/
def step : Option Pages → Op → Option (Option Pages)
  | none, _ => none
  | some s, .alloc order calloc => some ((s.pageAlloc order calloc).map Prod.snd)
  | some s, .free p => if p ∈ s.allocated then some (s.pageFree p) else none
  | some s, .store p i value =>
    if p ∈ s.allocated ∧ i < 2 ^ (pageShift + p.order) then
      some (some { s with mem := Function.update s.mem (linear (p.addr + i)) value })
    else none

end Pages

end I80k.Kernel

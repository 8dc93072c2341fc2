import I80k.Kernel.Error
import I80k.Kernel.Word
import I80k.Lib.Slice

/-!
# Block devices

The functions of `blkdev.c` that read and write a device, by blocks through its driver and by bytes
through the default functions. A transfer of bytes has three phases: a partial first block, whole
blocks, and a partial last block. Partial blocks go through a temporary buffer; to write one, the block
is read, changed and written back.

The driver is what `read_block` and `write_block` do to the state of the device. A buffer is the list of
its bytes, and a pointer into it an index. The pointers `dev` and `buf` are not null.

## Main definitions

* `Blkdev`: a device and its functions
* `Blkdev.blkBlockTrimRange`, `Blkdev.blkTrimRange`: what is left of a range on the device
* `Blkdev.Transfer`: the variables of the default functions
* `Blkdev.blkDefaultRead`, `Blkdev.blkDefaultWrite`
* `Blkdev.blkRead`, `Blkdev.blkWrite`
-/

namespace I80k.Kernel

open FlatArray

/-- `struct blkdev`, with a driver for devices of state `σ`. -/
structure Blkdev (σ : Type) where
  /-- `block_size`. -/
  blockSize : ℕ
  /-- `block_shift`. -/
  blockShift : ℕ
  /-- `block_count`. -/
  blockCount : ℕ
  /-- `read_block(dev, buf, block, count)`: the result, and the bytes that are stored in `buf`. -/
  readBlock : Option (σ → ℕ → ℕ → Int16 × List UInt8)
  /-- `write_block(dev, buf, block, count)`, with the bytes from `buf` on. -/
  writeBlock : Option (σ → List UInt8 → ℕ → ℕ → Int16 × σ)
  /-- `read(dev, buf, offset, len)`, with the memory that `malloc` returns and the bytes of `buf`. -/
  read : Option (σ → Option (List UInt8) → List UInt8 → ℕ → ℕ → Int16 × List UInt8)
  /-- `write(dev, buf, offset, len)`, with the memory that `malloc` returns and the bytes of `buf`. -/
  write : Option (σ → Option (List UInt8) → List UInt8 → ℕ → ℕ → Int16 × σ)

namespace Blkdev

variable {σ : Type} (dev : Blkdev σ)

/-! ## Blocks -/

/-- The part of a range of blocks that is on the device. -/
def blkBlockTrimRange (block count : ℕ) : ℕ :=
  if dev.blockCount ≤ block then 0
  else if count = 0 then 0
  else if dev.blockCount < toUint32 (block + count) then toUint (dev.blockCount - block)
  else count

/-- Reads blocks into a buffer, from index `pos` on. -/
def blkReadBlock (state : σ) (buf : List UInt8) (pos block count : ℕ) : Int16 × List UInt8 :=
  match dev.readBlock with
  | none => (errInval, buf)
  | some readBlock =>
    let count := dev.blkBlockTrimRange block count
    if count = 0 then (0, buf)
    else
      let (err, bytes) := readBlock state block count
      (err, splice buf pos bytes)

/-- Writes blocks from a buffer. -/
def blkWriteBlock (state : σ) (buf : List UInt8) (block count : ℕ) : Int16 × σ :=
  match dev.writeBlock with
  | none => (errInval, state)
  | some writeBlock =>
    let count := dev.blkBlockTrimRange block count
    if count = 0 then (0, state) else writeBlock state buf block count

/-! ## Bytes -/

/-- The part of a range of bytes that is on the device. The sum `offset + len` is an `off_t`, and wraps
around. -/
def blkTrimRange (offset len : ℕ) : ℕ :=
  let totalSize := toOff (toUint32 (dev.blockSize * dev.blockCount))
  if totalSize ≤ offset then 0
  else if len = 0 then 0
  else if totalSize < toOff (offset + len) then toUint (totalSize - offset).toNat
  else len

/-- The variables of the default functions: the state of the device, the temporary buffer, the buffer of
the caller with the number of bytes moved so far, the number of bytes left, and the next block. -/
structure Transfer (σ : Type) where
  state : σ
  temp : List UInt8
  buf : List UInt8
  bytes : ℕ
  len : ℕ
  block : ℕ

/-- The result of moving `count` blocks: an error if the driver returned one, or if it did not return
the number of bytes. -/
def checkCount (err : Int16) (count : ℕ) : Int16 :=
  if err < 0 then err
  else if err.toInt.toNat ≠ toUint32 (dev.blockSize * count) then errIo
  else err

/-- Goes on unless there was an error. -/
def andThen (r : Int16 × Transfer σ) (next : Int16 → Transfer σ → Int16 × Transfer σ) :
    Int16 × Transfer σ :=
  if r.1 < 0 then r else next r.1 r.2

/-- Reads the block into the temporary buffer. -/
def loadTemp (t : Transfer σ) : Int16 × Transfer σ :=
  let (err, temp) := dev.blkReadBlock t.state t.temp 0 t.block 1
  (dev.checkCount err 1, { t with temp })

/-- Writes the temporary buffer to the block. -/
def storeTemp (t : Transfer σ) : Int16 × Transfer σ :=
  let (err, state) := dev.blkWriteBlock t.state t.temp t.block 1
  (dev.checkCount err 1, { t with state })

/-- Reads the block, copies bytes to index `pos` of it, and writes it back. -/
def patchBlock (pos : ℕ) (bytes : List UInt8) (t : Transfer σ) : Int16 × Transfer σ :=
  andThen (dev.loadTemp t) fun _ t => dev.storeTemp { t with temp := splice t.temp pos bytes }

/-- Counts `moved` bytes and `blocks` blocks. -/
def Transfer.advance (t : Transfer σ) (moved blocks : ℕ) : Transfer σ :=
  { t with bytes := t.bytes + moved, len := t.len - moved, block := toUint32 (t.block + blocks) }

/-- The partial first block of a read. -/
def readFirst (offset : ℕ) (t : Transfer σ) : Int16 × Transfer σ :=
  if offset % dev.blockSize ≠ 0 then
    andThen (dev.loadTemp t) fun err t =>
      let blockOffset := offset % dev.blockSize
      let tocopy := min (dev.blockSize - blockOffset) t.len
      let buf := splice t.buf t.bytes (slice t.temp blockOffset tocopy)
      (err, { t with buf }.advance tocopy 1)
  else (0, t)

/-- The middle blocks of a read. -/
def readMiddle (t : Transfer σ) : Int16 × Transfer σ :=
  let numBlocks := t.len / 2 ^ dev.blockShift
  let (err, buf) := dev.blkReadBlock t.state t.buf t.bytes t.block (toUint numBlocks)
  andThen (dev.checkCount err numBlocks, { t with buf }) fun err t =>
    (err, t.advance err.toInt.toNat numBlocks)

/-- The partial last block of a read. -/
def readLast (err : Int16) (t : Transfer σ) : Int16 × Transfer σ :=
  if 0 < t.len then
    andThen (dev.loadTemp t) fun err t =>
      let buf := splice t.buf t.bytes (slice t.temp 0 t.len)
      (err, { t with buf, bytes := t.bytes + t.len })
  else (err, t)

/-- The partial first block of a write. -/
def writeFirst (offset : ℕ) (t : Transfer σ) : Int16 × Transfer σ :=
  if offset % dev.blockSize ≠ 0 then
    let blockOffset := offset % dev.blockSize
    let tocopy := min (dev.blockSize - blockOffset) t.len
    andThen (dev.patchBlock blockOffset (slice t.buf t.bytes tocopy) t) fun err t =>
      (err, t.advance tocopy 1)
  else (0, t)

/-- The middle blocks of a write. -/
def writeMiddle (t : Transfer σ) : Int16 × Transfer σ :=
  let blockCount := t.len / 2 ^ dev.blockShift
  let (err, state) := dev.blkWriteBlock t.state (t.buf.drop t.bytes) t.block (toUint blockCount)
  andThen (dev.checkCount err blockCount, { t with state }) fun err t =>
    (err, t.advance err.toInt.toNat blockCount)

/-- The partial last block of a write. -/
def writeLast (err : Int16) (t : Transfer σ) : Int16 × Transfer σ :=
  if 0 < t.len then
    andThen (dev.patchBlock 0 (slice t.buf t.bytes t.len) t) fun err t =>
      (err, { t with bytes := t.bytes + t.len })
  else (err, t)

/-- The three phases of a transfer. -/
def phases (first : Transfer σ → Int16 × Transfer σ) (middle : Transfer σ → Int16 × Transfer σ)
    (last : Int16 → Transfer σ → Int16 × Transfer σ) (t : Transfer σ) : Int16 × Transfer σ :=
  andThen (andThen (first t) fun _ => middle) last

/-- The result of a transfer: an error, or the number of bytes. -/
def result (r : Int16 × Transfer σ) : Int16 := if 0 ≤ r.1 then Int16.ofNat r.2.bytes else r.1

/-- The variables at the beginning. -/
def start (state : σ) (temp buf : List UInt8) (offset len : ℕ) : Transfer σ :=
  ⟨state, temp, buf, 0, len, toUint32 (offset / dev.blockSize)⟩

/-- Reads bytes: the result, and the buffer. -/
def blkDefaultRead (state : σ) (temp : Option (List UInt8)) (buf : List UInt8) (offset len : ℕ) :
    Int16 × List UInt8 :=
  match temp with
  | none => (errNoMem, buf)
  | some temp =>
    let r := phases (dev.readFirst offset) dev.readMiddle dev.readLast (dev.start state temp buf offset len)
    (result r, r.2.buf)

/-- Writes bytes: the result, and the state of the device. -/
def blkDefaultWrite (state : σ) (temp : Option (List UInt8)) (buf : List UInt8) (offset len : ℕ) :
    Int16 × σ :=
  match temp with
  | none => (errNoMem, state)
  | some temp =>
    let r := phases (dev.writeFirst offset) dev.writeMiddle dev.writeLast
      (dev.start state temp buf offset len)
    (result r, r.2.state)

/-- `blk_dev_add`, for what it does to the device: it gets the default functions unless it has others. -/
def blkDevAdd : Blkdev σ :=
  { dev with
    read := some (dev.read.getD dev.blkDefaultRead)
    write := some (dev.write.getD dev.blkDefaultWrite) }

/-- Reads bytes that are on the device. -/
def blkRead (state : σ) (temp : Option (List UInt8)) (buf : List UInt8) (offset len : ℕ) :
    Int16 × List UInt8 :=
  match dev.read with
  | none => (errInval, buf)
  | some read =>
    let len := dev.blkTrimRange offset len
    if len = 0 then (0, buf) else read state temp buf offset len

/-- Writes bytes that are on the device. It is `read` that the function tests; a device without `write`
has no result. -/
def blkWrite (state : σ) (temp : Option (List UInt8)) (buf : List UInt8) (offset len : ℕ) :
    Option (Int16 × σ) :=
  match dev.read with
  | none => some (errInval, state)
  | some _ =>
    let len := dev.blkTrimRange offset len
    if len = 0 then some (0, state)
    else dev.write.map fun write => write state temp buf offset len

end Blkdev

end I80k.Kernel

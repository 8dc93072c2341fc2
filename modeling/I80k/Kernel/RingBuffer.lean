import I80k.Lib.Run
import I80k.Kernel.Pc16550

/-!
# Ring buffers

`ringbuffer.c` over its array of `2 ^ k` bytes: the head and the tail are indices that are masked one by
one, and the number of bytes is their difference modulo `2 ^ 16`, masked. One byte of the array is never
used, so that a full buffer is not an empty one.

The buffer is there to hold the last `2 ^ k - 1` bytes: a bounded queue that drops its oldest byte to take
a new one. This is the meaning that the code of the drivers is given, and what the array refines.

## Main definitions

* `RingBufferT`: `ring_buffer_t`, with the functions of `ringbuffer.c`
* `Fifo`: the bounded queue, with its operations
* `RingBufferT.Represents`: the array holds the bytes of a queue

## Main results

* `Represents.queue`, `Represents.dequeue`, `Represents.peek`: one step of the array is one of the queue
* `ringBuffer_refines_fifo`: every sequence of calls has the same results on both
* `RingBuffer.queue_eq_push`: the buffer of the drivers' model is this queue
-/

namespace I80k.Kernel

open StepSystem

/-! ## The code -/

/-- `ring_buffer_t`, with the memory that `buffer` points to. -/
structure RingBufferT where
  buffer : List UInt8
  bufferMask : BitVec 16
  tailIndex : BitVec 16
  headIndex : BitVec 16

namespace RingBufferT

/-- `ring_buffer_init`. -/
def init (buf : List UInt8) (bufSize : BitVec 16) : RingBufferT := ⟨buf, bufSize - 1, 0, 0⟩

/-- `ring_buffer_is_empty`. -/
def isEmpty (rb : RingBufferT) : Bool := rb.headIndex == rb.tailIndex

/-- `ring_buffer_is_full`. -/
def isFull (rb : RingBufferT) : Bool := (rb.headIndex - rb.tailIndex) &&& rb.bufferMask == rb.bufferMask

/-- `ring_buffer_num_items`. -/
def numItems (rb : RingBufferT) : BitVec 16 := (rb.headIndex - rb.tailIndex) &&& rb.bufferMask

/-- `ring_buffer_queue`. -/
def queue (rb : RingBufferT) (data : UInt8) : RingBufferT :=
  -- the oldest byte is going to be overwritten
  let tail := if rb.isFull then (rb.tailIndex + 1) &&& rb.bufferMask else rb.tailIndex
  { rb with
    buffer := rb.buffer.set rb.headIndex.toNat data
    tailIndex := tail
    headIndex := (rb.headIndex + 1) &&& rb.bufferMask }

/-- `ring_buffer_queue_arr`. -/
def queueArr (rb : RingBufferT) (data : List UInt8) : RingBufferT := data.foldl queue rb

/-- `ring_buffer_dequeue`: the byte, if there was one. -/
def dequeue (rb : RingBufferT) : Option UInt8 × RingBufferT :=
  if rb.isEmpty then (none, rb)
  else
    (some (rb.buffer.getD rb.tailIndex.toNat 0),
      { rb with tailIndex := (rb.tailIndex + 1) &&& rb.bufferMask })

/-- The loop of `ring_buffer_dequeue_arr`, with `len - cnt` turns to go. -/
def dequeueLoop : ℕ → RingBufferT → List UInt8 × RingBufferT
  | 0, rb => ([], rb)
  | n + 1, rb =>
    match rb.dequeue with
    | (none, rb) => ([], rb)
    | (some data, rb) =>
      let rest := dequeueLoop n rb
      (data :: rest.1, rest.2)

/-- `ring_buffer_dequeue_arr`: the bytes that it stored; their number is its result. -/
def dequeueArr (rb : RingBufferT) (len : BitVec 16) : List UInt8 × RingBufferT :=
  if rb.isEmpty then ([], rb) else dequeueLoop len.toNat rb

/-- `ring_buffer_peek`. -/
def peek (rb : RingBufferT) (index : BitVec 16) : Option UInt8 :=
  if rb.numItems ≤ index then none
  else some (rb.buffer.getD ((rb.tailIndex + index) &&& rb.bufferMask).toNat 0)

end RingBufferT

/-! ## The queue -/

/-- A queue of at most `cap` elements, the oldest first. -/
structure Fifo (α : Type) (cap : ℕ) where
  items : List α
  bounded : items.length ≤ cap

namespace Fifo

variable {α : Type} {cap : ℕ}

def empty : Fifo α cap := ⟨[], Nat.zero_le _⟩

/-- The newest `cap` elements, with the new one. -/
def push (q : Fifo α cap) (a : α) : Fifo α cap :=
  ⟨(q.items ++ [a]).drop ((q.items ++ [a]).length - cap), by rw [List.length_drop]; omega⟩

theorem push_items (q : Fifo α cap) (a : α) :
    (q.push a).items = if q.items.length = cap then (q.items ++ [a]).tail else q.items ++ [a] := by
  have hb := q.bounded
  rw [push]
  dsimp only
  rw [List.length_append, List.length_singleton]
  split
  · next hfull =>
    rw [hfull, Nat.add_sub_cancel_left, List.drop_one]
  · next hfree =>
    rw [show q.items.length + 1 - cap = 0 by omega, List.drop_zero]

def pushAll (q : Fifo α cap) (as : List α) : Fifo α cap := as.foldl push q

/-- The queue without its `n` oldest elements. -/
def drop (q : Fifo α cap) (n : ℕ) : Fifo α cap :=
  ⟨q.items.drop n, (List.length_drop ▸ Nat.sub_le ..).trans q.bounded⟩

end Fifo

/-! ## Calls -/

/-- The calls after `ring_buffer_init`. -/
inductive RingBufferCall
  | queue (data : UInt8)
  | queueArr (data : List UInt8)
  | dequeue
  | dequeueArr (len : BitVec 16)
  | peek (index : BitVec 16)

/-- What a caller sees: the bytes that the call returned, and the buffer after it. -/
structure RingBufferSeen where
  bytes : List UInt8
  numItems : ℕ
  isEmpty : Bool
  isFull : Bool

namespace RingBufferT

def seen (bytes : List UInt8) (rb : RingBufferT) : RingBufferSeen × RingBufferT :=
  (⟨bytes, rb.numItems.toNat, rb.isEmpty, rb.isFull⟩, rb)

/-- One call. -/
def call (rb : RingBufferT) : RingBufferCall → RingBufferSeen × RingBufferT
  | .queue data => seen [] (rb.queue data)
  | .queueArr data => seen [] (rb.queueArr data)
  | .dequeue => seen rb.dequeue.1.toList rb.dequeue.2
  | .dequeueArr len => seen (rb.dequeueArr len).1 (rb.dequeueArr len).2
  | .peek index => seen (rb.peek index).toList rb

end RingBufferT

namespace Fifo

variable {cap : ℕ}

def seen (bytes : List UInt8) (q : Fifo UInt8 cap) : RingBufferSeen × Fifo UInt8 cap :=
  (⟨bytes, q.items.length, q.items.isEmpty, q.items.length == cap⟩, q)

/-- One call on the queue. -/
def call (q : Fifo UInt8 cap) : RingBufferCall → RingBufferSeen × Fifo UInt8 cap
  | .queue data => seen [] (q.push data)
  | .queueArr data => seen [] (q.pushAll data)
  | .dequeue => seen q.items.head?.toList (q.drop 1)
  | .dequeueArr len => seen (q.items.take len.toNat) (q.drop len.toNat)
  | .peek index => seen q.items[index.toNat]?.toList q

end Fifo

/-! ## Indices -/

section Index

variable {k : ℕ} {mask t h : BitVec 16}

/-- The mask is a remainder. -/
theorem toNat_and_mask (hmask : mask.toNat = 2 ^ k - 1) (x : BitVec 16) :
    (x &&& mask).toNat = x.toNat % 2 ^ k := by
  rw [BitVec.toNat_and, hmask, Nat.and_two_pow_sub_one_eq_mod]

theorem toNat_mod_two_pow (hk : k ≤ 16) (n : ℕ) : n % 2 ^ 16 % 2 ^ k = n % 2 ^ k :=
  Nat.mod_mod_of_dvd n (Nat.pow_dvd_pow 2 hk)

/-- The sum of an index and a number, masked. -/
theorem toNat_add_and_mask (hk : k ≤ 16) (hmask : mask.toNat = 2 ^ k - 1) (x y : BitVec 16) :
    ((x + y) &&& mask).toNat = (x.toNat + y.toNat) % 2 ^ k := by
  rw [toNat_and_mask hmask, BitVec.toNat_add, toNat_mod_two_pow hk]

/-- The distance of two indices, masked: the wrap-around of the difference is a multiple of the size. -/
theorem toNat_sub_and_mask (hk : k ≤ 16) (hmask : mask.toNat = 2 ^ k - 1) {n : ℕ} (ht : t.toNat < 2 ^ k)
    (hn : n < 2 ^ k) (hh : h.toNat = (t.toNat + n) % 2 ^ k) : ((h - t) &&& mask).toNat = n := by
  obtain ⟨m, hm⟩ : 2 ^ k ∣ 2 ^ 16 := Nat.pow_dvd_pow 2 hk
  rw [toNat_and_mask hmask, BitVec.toNat_sub, toNat_mod_two_pow hk, hh]
  have hpos : 0 < m := by
    by_contra hm0
    simp [Nat.eq_zero_of_not_pos hm0] at hm
  by_cases hlt : t.toNat + n < 2 ^ k
  · rw [Nat.mod_eq_of_lt hlt]
    have heq : 2 ^ 16 - t.toNat + (t.toNat + n) = n + 2 ^ k * m := by omega
    rw [heq, Nat.add_mul_mod_self_left, Nat.mod_eq_of_lt hn]
  · have hwrap : (t.toNat + n) % 2 ^ k = t.toNat + n - 2 ^ k := by
      rw [Nat.mod_eq_sub_mod (by omega), Nat.mod_eq_of_lt (by omega)]
    have hsplit : 2 ^ k * m = 2 ^ k * (m - 1) + 2 ^ k := by
      rw [← Nat.mul_succ, Nat.succ_eq_add_one, Nat.sub_add_cancel hpos]
    have heq : 2 ^ 16 - t.toNat + (t.toNat + n - 2 ^ k) = n + 2 ^ k * (m - 1) := by omega
    rw [hwrap, heq, Nat.add_mul_mod_self_left, Nat.mod_eq_of_lt hn]

/-- Two places at different distances from the tail, both within one turn. -/
theorem circular_ne {t i j n : ℕ} (hij : i < j) (hj : j < i + n) : (t + j) % n ≠ (t + i) % n := by
  intro heq
  have hdvd : n ∣ t + j - (t + i) := (Nat.modEq_iff_dvd' (by omega)).mp heq.symm
  have hle := Nat.le_of_dvd (by omega) hdvd
  omega

end Index

/-! ## The refinement -/

namespace RingBufferT

/-- The array of `2 ^ k` bytes holds the bytes of a queue, from the tail on. -/
structure Represents (k : ℕ) (rb : RingBufferT) (items : List UInt8) : Prop where
  k_lt : k < 16
  mask : rb.bufferMask.toNat = 2 ^ k - 1
  size : rb.buffer.length = 2 ^ k
  bound : items.length ≤ 2 ^ k - 1
  tail : rb.tailIndex.toNat < 2 ^ k
  head : rb.headIndex.toNat = (rb.tailIndex.toNat + items.length) % 2 ^ k
  bytes : ∀ i < items.length, rb.buffer.getD ((rb.tailIndex.toNat + i) % 2 ^ k) 0 = items.getD i 0

namespace Represents

variable {k : ℕ} {rb : RingBufferT} {items : List UInt8} (h : Represents k rb items)

include h

theorem length_lt : items.length < 2 ^ k := by
  have := h.bound
  have := Nat.two_pow_pos k
  omega

theorem numItems : rb.numItems.toNat = items.length :=
  toNat_sub_and_mask h.k_lt.le h.mask h.tail h.length_lt h.head

theorem isFull : rb.isFull = (items.length == 2 ^ k - 1) := by
  have hn := h.numItems
  unfold RingBufferT.numItems at hn
  rw [RingBufferT.isFull, Bool.eq_iff_iff, beq_iff_eq, beq_iff_eq, ← BitVec.toNat_inj, hn, h.mask]

theorem isEmpty : rb.isEmpty = items.isEmpty := by
  have hlt := h.length_lt
  have ht := h.tail
  rw [RingBufferT.isEmpty, Bool.eq_iff_iff, beq_iff_eq, List.isEmpty_iff_length_eq_zero,
    ← BitVec.toNat_inj, h.head]
  constructor
  · intro heq
    by_contra hne
    by_cases hwrap : rb.tailIndex.toNat + items.length < 2 ^ k
    · rw [Nat.mod_eq_of_lt hwrap] at heq
      omega
    · rw [Nat.mod_eq_sub_mod (by omega), Nat.mod_eq_of_lt (by omega)] at heq
      omega
  · intro heq
    rw [heq, Nat.add_zero, Nat.mod_eq_of_lt ht]

/-- The tail moves over the oldest byte. -/
theorem next (hne : items ≠ []) :
    Represents k { rb with tailIndex := (rb.tailIndex + 1) &&& rb.bufferMask } items.tail := by
  have htail : ((rb.tailIndex + 1) &&& rb.bufferMask).toNat = (rb.tailIndex.toNat + 1) % 2 ^ k :=
    toNat_add_and_mask h.k_lt.le h.mask _ _
  have hlen : items.tail.length + 1 = items.length := by
    rw [List.length_tail]
    have := List.length_pos_of_ne_nil hne
    omega
  refine ⟨h.k_lt, h.mask, h.size, ?_, ?_, ?_, ?_⟩
  · have := h.bound
    omega
  · rw [htail]
    exact Nat.mod_lt _ (Nat.two_pow_pos k)
  · rw [htail, h.head, Nat.mod_add_mod, ← hlen]
    congr 1
    omega
  · intro i hi
    rw [htail, Nat.mod_add_mod]
    have hb := h.bytes (i + 1) (by omega)
    have htl : items.tail.getD i 0 = items.getD (i + 1) 0 := by
      simp [List.getD_eq_getElem?_getD]
    rw [htl, ← hb]
    congr 2
    omega

/-- The byte at the head follows the others; its place is free unless the buffer is full. -/
theorem append (hfree : items.length < 2 ^ k - 1) (data : UInt8) :
    Represents k
      { rb with
        buffer := rb.buffer.set rb.headIndex.toNat data
        headIndex := (rb.headIndex + 1) &&& rb.bufferMask } (items ++ [data]) := by
  have hhead : ((rb.headIndex + 1) &&& rb.bufferMask).toNat = (rb.headIndex.toNat + 1) % 2 ^ k :=
    toNat_add_and_mask h.k_lt.le h.mask _ _
  refine ⟨h.k_lt, h.mask, ?_, ?_, h.tail, ?_, ?_⟩
  · rw [List.length_set]
    exact h.size
  · rw [List.length_append, List.length_singleton]
    omega
  · rw [hhead, h.head, Nat.mod_add_mod, List.length_append, List.length_singleton, Nat.add_assoc]
  · intro i hi
    rw [List.length_append, List.length_singleton] at hi
    have ht := h.tail
    by_cases hlast : i = items.length
    · -- the new byte
      subst hlast
      rw [← h.head, List.getD_append_right _ _ _ _ le_rfl, Nat.sub_self]
      have hlt : rb.headIndex.toNat < rb.buffer.length := by
        rw [h.size, h.head]
        exact Nat.mod_lt _ (Nat.two_pow_pos k)
      simp [List.getD_eq_getElem?_getD, hlt]
    · -- the places of the others are not the one of the head
      have hne : rb.headIndex.toNat ≠ (rb.tailIndex.toNat + i) % 2 ^ k := by
        rw [h.head]
        exact circular_ne (by omega) (by omega)
      rw [List.getD_append _ _ _ _ (by omega), ← h.bytes i (by omega)]
      simp [List.getD_eq_getElem?_getD, List.getElem?_set_ne hne]

omit h in
/-- An array of one byte holds nothing. -/
theorem queue_single (h : Represents k rb []) (hone : 2 ^ k = 1) (data : UInt8) :
    Represents k
      { rb with
        buffer := rb.buffer.set rb.headIndex.toNat data
        tailIndex := (rb.tailIndex + 1) &&& rb.bufferMask
        headIndex := (rb.headIndex + 1) &&& rb.bufferMask } [] := by
  have htail : ((rb.tailIndex + 1) &&& rb.bufferMask).toNat = 0 := by
    rw [toNat_add_and_mask h.k_lt.le h.mask, hone, Nat.mod_one]
  have hhead : ((rb.headIndex + 1) &&& rb.bufferMask).toNat = 0 := by
    rw [toNat_add_and_mask h.k_lt.le h.mask, hone, Nat.mod_one]
  refine ⟨h.k_lt, h.mask, ?_, Nat.zero_le _, ?_, ?_, fun i hi => absurd hi (Nat.not_lt_zero i)⟩
  · rw [List.length_set]
    exact h.size
  · rw [htail]
    exact Nat.two_pow_pos k
  · rw [hhead, htail, List.length_nil, Nat.zero_mod]

omit h in
/-- `ring_buffer_queue` is a push. -/
theorem queue {q : Fifo UInt8 (2 ^ k - 1)} (h : Represents k rb q.items) (data : UInt8) :
    Represents k (rb.queue data) (q.push data).items := by
  have hlt := h.length_lt
  rw [RingBufferT.queue, h.isFull, Fifo.push_items]
  by_cases hfull : q.items.length = 2 ^ k - 1
  · rw [if_pos hfull, if_pos (by simpa using hfull)]
    cases hitems : q.items with
    | nil =>
      rw [hitems] at h hfull
      have hone : 2 ^ k = 1 := by
        rw [List.length_nil] at hfull
        omega
      exact h.queue_single hone data
    | cons a as =>
      -- the tail leaves the oldest byte, and the place of the head is free
      rw [hitems] at h hfull
      have hnext := h.next (List.cons_ne_nil a as)
      rw [List.length_cons] at hfull
      exact hnext.append (by rw [List.tail_cons]; omega) data
  · rw [if_neg hfull, if_neg (by simpa using hfull)]
    have hb := h.bound
    exact h.append (by omega) data

omit h in
/-- `ring_buffer_queue_arr` pushes the bytes one by one. -/
theorem queueArr {q : Fifo UInt8 (2 ^ k - 1)} (h : Represents k rb q.items) (data : List UInt8) :
    Represents k (rb.queueArr data) (q.pushAll data).items := by
  induction data generalizing rb q with
  | nil => exact h
  | cons a data ih => exact ih (h.queue a)

/-- `ring_buffer_dequeue` takes the oldest byte. -/
theorem dequeue : rb.dequeue.1 = items.head? ∧ Represents k rb.dequeue.2 items.tail := by
  rw [RingBufferT.dequeue, h.isEmpty]
  cases items with
  | nil => exact ⟨rfl, h⟩
  | cons a as =>
    refine ⟨?_, h.next (List.cons_ne_nil a as)⟩
    have hb := h.bytes 0 (Nat.succ_pos _)
    rw [Nat.add_zero, Nat.mod_eq_of_lt h.tail] at hb
    exact congrArg some hb

theorem dequeueLoop (n : ℕ) :
    (RingBufferT.dequeueLoop n rb).1 = items.take n ∧
      Represents k (RingBufferT.dequeueLoop n rb).2 (items.drop n) := by
  induction n generalizing rb items with
  | zero => exact ⟨rfl, h⟩
  | succ n ih =>
    obtain ⟨hbyte, hrest⟩ := h.dequeue
    cases hd : rb.dequeue with
    | mk byte rb' =>
      rw [hd] at hbyte hrest
      rw [RingBufferT.dequeueLoop, hd]
      cases items with
      | nil =>
        obtain rfl : byte = none := hbyte
        exact ⟨rfl, hrest⟩
      | cons a as =>
        obtain rfl : byte = some a := hbyte
        obtain ⟨hbytes, hrest'⟩ := ih hrest
        exact ⟨congrArg (a :: ·) hbytes, hrest'⟩

theorem dequeueArr (len : BitVec 16) :
    (rb.dequeueArr len).1 = items.take len.toNat ∧
      Represents k (rb.dequeueArr len).2 (items.drop len.toNat) := by
  rw [RingBufferT.dequeueArr, h.isEmpty]
  cases items with
  | nil => simpa using h
  | cons a as => exact h.dequeueLoop len.toNat

/-- `ring_buffer_peek` reads at a distance from the tail. -/
theorem peek (index : BitVec 16) : rb.peek index = items[index.toNat]? := by
  unfold RingBufferT.peek
  by_cases hlt : index.toNat < items.length
  · have hle : ¬ rb.numItems ≤ index := by
      rw [BitVec.le_def, h.numItems]
      omega
    rw [if_neg hle, toNat_add_and_mask h.k_lt.le h.mask, h.bytes _ hlt, List.getD_eq_getElem _ _ hlt,
      List.getElem?_eq_getElem hlt]
  · have hle : rb.numItems ≤ index := by
      rw [BitVec.le_def, h.numItems]
      omega
    rw [if_pos hle, List.getElem?_eq_none (by omega)]

end Represents

/-- `ring_buffer_init` of an array of `2 ^ k` bytes. -/
theorem represents_init {k : ℕ} (hk : k < 16) {buf : List UInt8} (hbuf : buf.length = 2 ^ k) :
    Represents k (init buf (BitVec.ofNat 16 (2 ^ k))) [] := by
  have hpos := Nat.two_pow_pos k
  have hlt : 2 ^ k < 2 ^ 16 := Nat.pow_lt_pow_right (by norm_num) hk
  refine ⟨hk, ?_, hbuf, Nat.zero_le _, hpos, ?_, fun i hi => absurd hi (Nat.not_lt_zero i)⟩
  · show (BitVec.ofNat 16 (2 ^ k) - 1).toNat = 2 ^ k - 1
    rw [BitVec.toNat_sub, BitVec.toNat_ofNat, show (1 : BitVec 16).toNat = 1 from rfl]
    omega
  · show 0 = (0 + 0) % 2 ^ k
    rw [Nat.zero_mod]

theorem seen_eq {k : ℕ} {rb : RingBufferT} {q : Fifo UInt8 (2 ^ k - 1)} (h : Represents k rb q.items)
    (bytes : List UInt8) :
    (seen bytes rb).1 = (q.seen bytes).1 ∧ Represents k (seen bytes rb).2 (q.seen bytes).2.items := by
  refine ⟨?_, h⟩
  show RingBufferSeen.mk bytes rb.numItems.toNat rb.isEmpty rb.isFull = _
  rw [h.numItems, h.isEmpty, h.isFull]
  rfl

/-- One call of the code is one call on the queue. -/
theorem call_refines {k : ℕ} {rb : RingBufferT} {q : Fifo UInt8 (2 ^ k - 1)} (h : Represents k rb q.items)
    (c : RingBufferCall) :
    (rb.call c).1 = (q.call c).1 ∧ Represents k (rb.call c).2 (q.call c).2.items := by
  cases c with
  | queue data => exact seen_eq (h.queue data) []
  | queueArr data => exact seen_eq (h.queueArr data) []
  | dequeue =>
    obtain ⟨hbyte, hrest⟩ := h.dequeue
    rw [call, Fifo.call, hbyte]
    rw [← List.drop_one] at hrest
    exact seen_eq hrest _
  | dequeueArr len =>
    obtain ⟨hbytes, hrest⟩ := h.dequeueArr len
    rw [call, Fifo.call, hbytes]
    exact seen_eq hrest _
  | peek index =>
    rw [call, Fifo.call, h.peek]
    exact seen_eq h _

end RingBufferT

/-- **A ring buffer is a bounded queue that drops its oldest byte**: after `ring_buffer_init` with an array
of `2 ^ k` bytes, every sequence of calls returns what it returns on a queue of `2 ^ k - 1` bytes. -/
theorem ringBuffer_refines_fifo {k : ℕ} (hk : k < 16) {buf : List UInt8} (hbuf : buf.length = 2 ^ k)
    (calls : List RingBufferCall) :
    trace RingBufferT.call (RingBufferT.init buf (BitVec.ofNat 16 (2 ^ k))) calls =
      trace Fifo.call (Fifo.empty : Fifo UInt8 (2 ^ k - 1)) calls :=
  trace_eq_of_bisim (fun _ _ c h => RingBufferT.call_refines h c) (RingBufferT.represents_init hk hbuf) calls

/-- A string longer than the buffer: four bytes hold its last three. -/
theorem ringBuffer_refines_fifo_overflow :
    trace RingBufferT.call (RingBufferT.init [0, 0, 0, 0] 4)
        [.queueArr [1, 2, 3, 4, 5], .peek 0, .dequeueArr 9] =
      [⟨[], 3, false, true⟩, ⟨[3], 3, false, true⟩, ⟨[3, 4, 5], 0, true, false⟩] := by
  rw [show (4 : BitVec 16) = BitVec.ofNat 16 (2 ^ 2) from rfl, ringBuffer_refines_fifo (by decide) rfl]
  rfl

/-- The buffer that the drivers' model queues bytes in is this queue. -/
theorem RingBuffer.queue_eq_push {rb : RingBuffer} (hpos : 0 < rb.mask) (hb : rb.items.length ≤ rb.mask)
    (data : UInt8) :
    (rb.queue data).items = (Fifo.push ⟨rb.items, hb⟩ data).items := by
  rw [Fifo.push_items, RingBuffer.queue]
  dsimp only
  split
  · next hfull =>
    -- a full buffer has an oldest byte
    rw [List.tail_append_of_ne_nil (List.ne_nil_of_length_pos (by omega))]
  · rfl

end I80k.Kernel

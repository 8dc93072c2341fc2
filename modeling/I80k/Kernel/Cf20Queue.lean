import I80k.Kernel.Cf20
import I80k.Lib.Run

/-!
# The queue of the CompactFlash driver

A request is served by one command, an interrupt and the bytes of a sector for each of its sectors, and
the wake-up of its task. The queue is in order if the trace is that: the services of the requests, one
after the other and in the order of their submission, and the beginning of the service of the next one.

A request that finds the queue empty is served so. One that waits behind another is not: when it comes to
the head of the queue, `cf20_handler` sends its command, but leaves it in the state in which a command is
still to be sent. The next interrupt finds it there, and sends the command again.

## Main definitions

* `Request.service`, `Request.started`: the service of a request, and its beginning
* `Cf20.InOrder`: the trace is the services of the requests, in order
* `Cf20.Ready`: an interrupt finds a request whose sectors are moved at the head of the queue

## Main results

* `Cf20.AtHead.interrupt`: an interrupt moves the next sector of the request at the head
* `cf20_in_order_iff`: the queue is in order along exactly the runs whose interrupts are all `Ready`
* `cf20_in_order_of_empty`: it is, if each submission finds the queue empty
-/

namespace I80k.Kernel

/-! ## What the service of a request is -/

namespace Request

/-- The first sector on the card; sectors have numbers of 28 bits. -/
def lba (r : Request) : ℕ := r.block % 2 ^ 28

/-- The command of the request. -/
def command (r : Request) : Command := r.dir.send r.block r.count

/-- Sector `k` of the request: an interrupt, and the bytes, to or from `buf + 512 * k`. -/
def sectorEvents (r : Request) (k : ℕ) : List Cf20Event :=
  .interrupt :: (List.range sectorSz).map fun i =>
    .data r.dir (sectorSz * (r.lba + k) + i) (r.buf + sectorSz * k + i)

/-- The beginning of the service, up to sector `k`. -/
def started (r : Request) (k : ℕ) : List Cf20Event :=
  .command r.command :: (List.range k).flatMap r.sectorEvents

/-- The service of the request. -/
def service (r : Request) : List Cf20Event := r.started r.count ++ [.wakeUp r.task]

/-- The request as it is put on the queue behind others. -/
def waiting (r : Request) : TaskId × BioRequest := (r.task, ⟨r.dir.cmd, r.block, r.count, r.buf⟩)

theorem started_succ (r : Request) (k : ℕ) : r.started (k + 1) = r.started k ++ r.sectorEvents k := by
  simp [started, List.range_succ]

end Request

theorem Direction.send_cmd (dir : Direction) : dir.cmd.Send := by
  cases dir <;> decide

theorem Direction.not_send_sector (dir : Direction) : ¬ dir.sector.Send := by
  cases dir <;> decide

namespace Cf20

/-- The requests are served in the order of their submission, each by one command, its sectors and the
wake-up of its task; the tasks of the others sleep. -/
def InOrder (s : Cf20) : Prop :=
  ∃ done rest, s.submitted = done ++ rest ∧ s.requests.map Prod.fst = rest.map Request.task ∧
    match rest with
    | [] => s.trace = done.flatMap Request.service
    | r :: _ => ∃ k < r.count, s.trace = done.flatMap Request.service ++ r.started k

/-- An interrupt finds a request at the head of the queue whose command was sent when it was submitted. -/
def Ready (s : Cf20) : Op → Prop
  | .interrupt => ∀ head ∈ s.requests.head?, ¬ head.2.state.Send
  | _ => True

instance (s : Cf20) (op : Op) : Decidable (s.Ready op) :=
  match op with
  | .interrupt => inferInstanceAs (Decidable (∀ head ∈ s.requests.head?, ¬ head.2.state.Send))
  | .readBlock .. => inferInstanceAs (Decidable True)
  | .writeBlock .. => inferInstanceAs (Decidable True)

/-! ## The commands -/

theorem sectors_sectorsCommand {cmd : UInt8} {block count : ℕ} (hpos : 0 < count) (hle : count ≤ 256) :
    (sectorsCommand cmd block count).sectors = count := by
  rw [Command.sectors, sectorsCommand]
  dsimp only
  -- 256 sectors are the number 0 in the register.
  by_cases hlt : count < 256
  · have hnat : (UInt8.ofNat count).toNat = count := by
      rw [UInt8.toNat_ofNat']
      exact Nat.mod_eq_of_lt hlt
    have hne : UInt8.ofNat count ≠ 0 := by
      intro h
      rw [h] at hnat
      simp at hnat
      omega
    rw [if_pos hlt, if_neg hne, hnat]
  · rw [if_neg hlt, if_pos rfl]
    omega

theorem lba_sectorsCommand (cmd : UInt8) (block count : ℕ) :
    (sectorsCommand cmd block count).lba = block % 2 ^ 28 := by
  have hhead : ∀ n < 16, (UInt8.ofNat (0xA0 ||| 0x40 ||| n)).toNat &&& 0xF = n := by decide
  have hand : block / 2 ^ 24 &&& 0xF = block / 2 ^ 24 % 16 := Nat.and_two_pow_sub_one_eq_mod _ 4
  rw [Command.lba, sectorsCommand]
  dsimp only
  rw [hand, hhead _ (Nat.mod_lt _ (by norm_num))]
  simp only [UInt8.toNat_ofNat']
  omega

/-- The card takes the command of a request for what it is. -/
theorem receive_command {r : Request} (hpos : 0 < r.count) (hle : r.count ≤ 256) (card : Card) :
    card.receive r.command = ⟨r.count, r.lba, card.byte⟩ := by
  rw [Card.receive, Request.command, Request.lba]
  cases r.dir with
  | read =>
    simp only [Direction.send, cf20SendReadSectors]
    rw [sectors_sectorsCommand hpos hle, lba_sectorsCommand]
  | write =>
    simp only [Direction.send, cf20SendWriteSectors]
    rw [sectors_sectorsCommand hpos hle, lba_sectorsCommand]

/-! ## The bytes of a sector -/

theorem sectorLoop_eq (dir : Direction) (n : ℕ) : ∀ (buf : ℕ) (s : Cf20),
    sectorLoop dir n buf s = { s with
      card := { s.card with byte := s.card.byte + n }
      trace := s.trace ++ (List.range n).map fun i => .data dir (s.card.byte + i) (buf + i) } := by
  -- Induction on the bytes left, from all addresses: the first one is that of the next byte.
  induction n with
  | zero =>
    intro buf s
    simp [sectorLoop]
  | succ n ih =>
    intro buf s
    rw [sectorLoop, ih, List.range_succ_eq_map]
    simp only [dataByte, log, List.map_cons, List.map_map, List.append_assoc, Nat.add_zero]
    have hmap : ((fun i => Cf20Event.data dir (s.card.byte + i) (buf + i)) ∘ Nat.succ) =
        fun i => Cf20Event.data dir (s.card.byte + 1 + i) (buf + 1 + i) := by
      funext i
      simp only [Function.comp_apply]
      congr 1 <;> omega
    rw [hmap, Nat.add_right_comm]
    rfl

/-! ## The handler -/

/-- The request after one more of its sectors. -/
def BioRequest.advance (io : BioRequest) : BioRequest where
  state := if io.count = 1 then .done else io.state
  block := toUint32 (io.block + 1)
  count := io.count - 1
  buf := io.buf + sectorSz

theorem handleSector_eq {s : Cf20} {io : BioRequest} {dir : Direction} (hstate : io.state = dir.sector)
    (hpos : 0 < io.count) (hle : io.count ≤ 256) :
    s.handleSector io = (sectorLoop dir sectorSz io.buf s, BioRequest.advance io) := by
  have hcount : toUint (io.count + (2 ^ 16 - 1)) = io.count - 1 := by
    rw [toUint]
    omega
  have hdone : io.count - 1 = 0 ↔ io.count = 1 := by omega
  rw [handleSector, moveSector, hcount]
  cases dir with
  | read => simp [hdone, hstate, BioRequest.advance, Direction.sector, BioState.RwSector, cf20ReadSector]
  | write => simp [hdone, hstate, BioRequest.advance, Direction.sector, BioState.RwSector, cf20WriteSector]

theorem sendCommand_sector {s : Cf20} {io : BioRequest} {dir : Direction} (h : io.state = dir.sector) :
    s.sendCommand io = s := by
  rw [sendCommand, h, if_neg dir.not_send_sector]

theorem sendCommand_cmd {s : Cf20} {io : BioRequest} {dir : Direction} (h : io.state = dir.cmd) :
    s.sendCommand io = s.send (dir.send io.block io.count) := by
  rw [sendCommand, h]
  cases dir with
  | read => rfl
  | write => rfl

/-- There are more sectors to come. -/
theorem cf20Handler_more {s : Cf20} {task : TaskId} {io : BioRequest} {rest : List (TaskId × BioRequest)}
    {dir : Direction} (hqueue : s.requests = (task, io) :: rest) (hstate : io.state = dir.sector)
    (hmore : 1 < io.count) (hle : io.count ≤ 256) :
    s.cf20Handler = { sectorLoop dir sectorSz io.buf s with
      requests := (task, BioRequest.advance io) :: rest } := by
  have hadvance : (BioRequest.advance io).state = dir.sector := by
    rw [BioRequest.advance, if_neg (by omega), hstate]
  have hdone : ¬ dir.sector = .done := by cases dir <;> decide
  simp only [cf20Handler, hqueue, @handleSector_eq s io dir hstate (by omega) hle]
  rw [handleDone, hadvance, if_neg hdone]
  exact sendCommand_sector hadvance

/-- The last sector was moved: the task is woken up, and the second part of the handler goes on with the
requests behind it. -/
theorem cf20Handler_done {s : Cf20} {task : TaskId} {io : BioRequest} {rest : List (TaskId × BioRequest)}
    {dir : Direction} (hqueue : s.requests = (task, io) :: rest) (hstate : io.state = dir.sector)
    (hone : io.count = 1) :
    s.cf20Handler =
      match rest with
      | [] => { sectorLoop dir sectorSz io.buf s with requests := rest }.log (.wakeUp task)
      | (_, next) :: _ =>
        ({ sectorLoop dir sectorSz io.buf s with requests := rest }.log (.wakeUp task)).sendCommand next := by
  have hadvance : (BioRequest.advance io).state = .done := by rw [BioRequest.advance, if_pos hone]
  simp only [cf20Handler, hqueue, @handleSector_eq s io dir hstate (by omega) (by omega)]
  rw [handleDone, if_pos hadvance]
  cases rest with
  | nil => rfl
  | cons next rest => rfl

/-- A request whose command was sent by the handler: the command is sent again. -/
theorem cf20Handler_again {s : Cf20} {task : TaskId} {io : BioRequest} {rest : List (TaskId × BioRequest)}
    {dir : Direction} (hqueue : s.requests = (task, io) :: rest) (hstate : io.state = dir.cmd) :
    s.cf20Handler = s.send (dir.send io.block io.count) := by
  have hrw : ¬ dir.cmd.RwSector := by cases dir <;> decide
  have hdone : ¬ dir.cmd = .done := by cases dir <;> decide
  have hsector : s.handleSector io = (s, io) := by rw [handleSector, hstate, if_neg hrw]
  simp only [cf20Handler, hqueue, hsector]
  rw [handleDone, hstate, if_neg hdone, ← hqueue]
  exact sendCommand_cmd hstate

/-! ## The invariant -/

/-- The queue is empty, and all requests were served. -/
structure Idle (s : Cf20) : Prop where
  queue : s.requests = []
  card : s.card.left = 0
  trace : s.trace = s.submitted.flatMap Request.service

/-- The request `r` is at the head of the queue, and `k` of its sectors were moved; `done` were served
before, and `rest` wait. -/
structure AtHead (s : Cf20) (done : List Request) (r : Request) (rest : List Request) (k : ℕ)
    (io : BioRequest) : Prop where
  submitted : s.submitted = done ++ r :: rest
  queue : s.requests = (r.task, io) :: rest.map Request.waiting
  lt : k < r.count
  count : io.count = r.count - k
  buf : io.buf = r.buf + sectorSz * k
  state : io.state = r.dir.sector ∨ io.state = r.dir.cmd
  left : s.card.left = r.count - k
  sector : s.card.sector = r.lba + k
  trace : s.trace = done.flatMap Request.service ++ r.started k

/-- The states that are reached as long as the queue is in order. -/
structure Inv (s : Cf20) : Prop where
  counts : ∀ r ∈ s.submitted, 0 < r.count ∧ r.count ≤ 256
  queue : s.Idle ∨ ∃ done r rest k io, s.AtHead done r rest k io

theorem inv_initial : initial.Inv :=
  ⟨by simp [initial], Or.inl ⟨rfl, rfl, rfl⟩⟩

theorem Inv.inOrder {s : Cf20} (h : s.Inv) : s.InOrder := by
  rcases h.queue with hidle | ⟨done, r, rest, k, io, hhead⟩
  · refine ⟨s.submitted, [], by simp, ?_, hidle.trace⟩
    rw [hidle.queue]
    rfl
  · refine ⟨done, r :: rest, hhead.submitted, ?_, k, hhead.lt, hhead.trace⟩
    rw [hhead.queue]
    simp [Request.waiting]

/-- The state when the card has raised an interrupt. -/
def raise (s : Cf20) : Cf20 := { s with card := s.card.interrupt }.log .interrupt

/-- The bytes of sector `k` follow the interrupt. -/
theorem AtHead.sectorLoop {s : Cf20} {done : List Request} {r : Request} {rest : List Request} {k : ℕ}
    {io : BioRequest} (h : s.AtHead done r rest k io) :
    sectorLoop r.dir sectorSz io.buf s.raise = { s with
      card := ⟨r.count - (k + 1), r.lba + (k + 1), sectorSz * (r.lba + k) + sectorSz⟩
      trace := done.flatMap Request.service ++ r.started (k + 1) } := by
  have htrace : s.raise.trace = s.trace ++ [.interrupt] := rfl
  have hcard : s.raise.card = ⟨r.count - (k + 1), r.lba + (k + 1), sectorSz * (r.lba + k)⟩ := by
    simp only [raise, log, Card.interrupt, h.left, h.sector]
    congr 1
  rw [sectorLoop_eq, hcard, htrace, h.trace, h.buf, Request.started_succ, Request.sectorEvents]
  simp [raise, log]

/-- An interrupt for a request that has more than one sector left. -/
theorem AtHead.more {s : Cf20} {done : List Request} {r : Request} {rest : List Request} {k : ℕ}
    {io : BioRequest} (h : s.AtHead done r rest k io) (hstate : io.state = r.dir.sector)
    (hle : r.count ≤ 256) (hmore : k + 1 < r.count) :
    s.raise.cf20Handler.AtHead done r rest (k + 1) (BioRequest.advance io) := by
  have hcount := h.count
  have hqueue : s.raise.requests = (r.task, io) :: rest.map Request.waiting := h.queue
  have hadvance : (BioRequest.advance io).state = r.dir.sector := by
    rw [BioRequest.advance, if_neg (by omega), hstate]
  rw [cf20Handler_more hqueue hstate (by omega) (by omega), h.sectorLoop]
  refine ⟨h.submitted, rfl, hmore, ?_, ?_, Or.inl hadvance, rfl, rfl, rfl⟩
  · simp only [BioRequest.advance]
    omega
  · simp only [BioRequest.advance, h.buf, Nat.mul_succ, Nat.add_assoc]

/-- An interrupt for the last sector of the only request. -/
theorem AtHead.last {s : Cf20} {done : List Request} {r : Request} {k : ℕ} {io : BioRequest}
    (h : s.AtHead done r [] k io) (hstate : io.state = r.dir.sector) (hlast : k + 1 = r.count) :
    s.raise.cf20Handler.Idle ∧ s.raise.cf20Handler.submitted = s.submitted := by
  have hcount := h.count
  have hqueue : s.raise.requests = [(r.task, io)] := h.queue
  rw [cf20Handler_done hqueue hstate (by omega), h.sectorLoop]
  refine ⟨⟨rfl, by simp [log, hlast], ?_⟩, rfl⟩
  simp [log, h.submitted, hlast, Request.service]

/-- An interrupt for the last sector of a request, with another one behind it: the command of that one is
sent. -/
theorem AtHead.next {s : Cf20} {done : List Request} {r r' : Request} {rest : List Request} {k : ℕ}
    {io : BioRequest} (h : s.AtHead done r (r' :: rest) k io) (hstate : io.state = r.dir.sector)
    (hlast : k + 1 = r.count) (hpos : 0 < r'.count) (hle : r'.count ≤ 256) :
    s.raise.cf20Handler.AtHead (done ++ [r]) r' rest 0 r'.waiting.2 := by
  have hcount := h.count
  have hqueue : s.raise.requests =
      (r.task, io) :: (r'.task, r'.waiting.2) :: rest.map Request.waiting := h.queue
  rw [cf20Handler_done hqueue hstate (by omega), h.sectorLoop]
  dsimp only
  rw [sendCommand_cmd (show r'.waiting.2.state = r'.dir.cmd from rfl)]
  have hcard : ∀ card : Card, card.receive (r'.dir.send r'.waiting.2.block r'.waiting.2.count) =
      ⟨r'.count, r'.lba, card.byte⟩ := receive_command hpos hle
  simp only [send, log, hcard]
  refine ⟨?_, rfl, hpos, rfl, rfl, Or.inr rfl, rfl, rfl, ?_⟩
  · rw [h.submitted]
    simp
  · simp [hlast, Request.service, Request.started, Request.command, Request.waiting]

/-- **An interrupt** for a request whose sectors are moved. -/
theorem Inv.interrupt {s : Cf20} (h : s.Inv) (hready : s.Ready .interrupt) (hleft : s.card.left ≠ 0) :
    s.raise.cf20Handler.Inv := by
  rcases h.queue with hidle | ⟨done, r, rest, k, io, hhead⟩
  · exact absurd hidle.card hleft
  · have hstate : io.state = r.dir.sector := by
      refine hhead.state.resolve_right fun hcmd => ?_
      refine hready (r.task, io) ?_ (hcmd ▸ r.dir.send_cmd)
      rw [hhead.queue]
      rfl
    have hmem : ∀ r' ∈ r :: rest, 0 < r'.count ∧ r'.count ≤ 256 := by
      intro r' hr'
      refine h.counts r' ?_
      rw [hhead.submitted]
      exact List.mem_append_right _ hr'
    have hlt := hhead.lt
    -- There are more sectors of the request to come, or it is done and the next one is at the head.
    rcases Nat.lt_or_ge (k + 1) r.count with hmore | hlast
    · have hnew := hhead.more hstate (hmem r List.mem_cons_self).2 hmore
      refine ⟨?_, Or.inr ⟨done, r, rest, k + 1, _, hnew⟩⟩
      rw [hnew.submitted, ← hhead.submitted]
      exact h.counts
    · have hlast' : k + 1 = r.count := by omega
      cases rest with
      | nil =>
        obtain ⟨hidle, hsub⟩ := hhead.last hstate hlast'
        exact ⟨hsub ▸ h.counts, Or.inl hidle⟩
      | cons r' rest =>
        obtain ⟨hpos, hle⟩ := hmem r' (List.mem_cons_of_mem _ List.mem_cons_self)
        have hnew := hhead.next hstate hlast' hpos hle
        refine ⟨?_, Or.inr ⟨done ++ [r], r', rest, 0, _, hnew⟩⟩
        rw [hnew.submitted, List.append_assoc, List.singleton_append, ← hhead.submitted]
        exact h.counts

/-- **A submission**: the request starts at once, or waits behind the others. -/
theorem Inv.block {s : Cf20} (h : s.Inv) (dir : Direction) (task : TaskId) (block count buf : ℕ) :
    (s.cf20Block dir task block count buf).2.Inv := by
  by_cases hinval : count = 0 ∨ 256 < count ∨ buf = 0
  · rw [cf20Block, if_pos hinval]
    exact h
  have hpos : 0 < count := by omega
  have hle : count ≤ 256 := by omega
  set r : Request := ⟨task, dir, block, count, buf⟩ with hr
  have hcounts : ∀ r' ∈ s.submitted ++ [r], 0 < r'.count ∧ r'.count ≤ 256 := by
    intro r' hr'
    rcases List.mem_append.mp hr' with hold | hnew
    · exact h.counts r' hold
    · rw [List.mem_singleton.mp hnew]
      exact ⟨hpos, hle⟩
  rw [cf20Block, if_neg hinval]
  by_cases hempty : s.requests = []
  · -- The command is sent at once.
    rw [if_pos hempty]
    rcases h.queue with hidle | ⟨done, r', rest, k, io, hhead⟩
    · refine ⟨hcounts, Or.inr ⟨s.submitted, r, [], 0, ⟨dir.sector, block, count, buf⟩, ?_⟩⟩
      have hcard : s.card.receive (dir.send block count) = ⟨r.count, r.lba, s.card.byte⟩ :=
        @receive_command r hpos hle s.card
      simp only [send, log, hcard]
      refine ⟨rfl, ?_, hpos, rfl, rfl, Or.inl rfl, rfl, rfl, ?_⟩
      · rw [hempty]
        rfl
      · rw [hidle.trace]
        rfl
    · rw [hhead.queue] at hempty
      cases hempty
  · -- The request is put behind the one at the head, and the rest of the queue.
    rw [if_neg hempty]
    rcases h.queue with hidle | ⟨done, r', rest, k, io, hhead⟩
    · exact absurd hidle.queue hempty
    · refine ⟨hcounts, Or.inr ⟨done, r', rest ++ [r], k, io, ?_⟩⟩
      refine ⟨?_, ?_, hhead.lt, hhead.count, hhead.buf, hhead.state, hhead.left, hhead.sector, hhead.trace⟩
      · simp only [hhead.submitted, List.append_assoc, List.cons_append]
        rfl
      · simp only [hhead.queue, List.map_append, List.cons_append]
        rfl

theorem Inv.step {s s' : Cf20} {op : Op} (h : s.Inv) (hready : s.Ready op) (hstep : s.step op = some s') :
    s'.Inv := by
  cases op with
  | readBlock task block count buf =>
    rw [Cf20.step] at hstep
    split_ifs at hstep
    exact Option.some.inj hstep ▸ h.block .read task block count buf
  | writeBlock task block count buf =>
    rw [Cf20.step] at hstep
    split_ifs at hstep
    exact Option.some.inj hstep ▸ h.block .write task block count buf
  | interrupt =>
    rw [Cf20.step] at hstep
    split_ifs at hstep with hleft
    exact Option.some.inj hstep ▸ h.interrupt hready hleft

/-- No command is left to be sent. -/
def Sent (s : Cf20) : Prop := ∀ e ∈ s.requests, ¬ e.2.state.Send

theorem Sent.ready {s : Cf20} (h : s.Sent) (op : Op) : s.Ready op := by
  cases op with
  | readBlock task block count buf => trivial
  | writeBlock task block count buf => trivial
  | interrupt => exact fun head hhead => h head (List.mem_of_mem_head? hhead)

theorem Sent.block {s : Cf20} (h : s.Sent) (hempty : s.requests = []) (dir : Direction) (task : TaskId)
    (block count buf : ℕ) : (s.cf20Block dir task block count buf).2.Sent := by
  rw [cf20Block]
  split_ifs with hinval
  · exact h
  · intro e he
    simp only [hempty, send, log, List.nil_append, List.mem_singleton] at he
    rw [he]
    exact dir.not_send_sector

/-- The request at the head stays one whose sectors are moved, and there are no others. -/
theorem Inv.sent_interrupt {s : Cf20} (h : s.Inv) (hsent : s.Sent) (hleft : s.card.left ≠ 0) :
    s.raise.cf20Handler.Sent := by
  rcases h.queue with hidle | ⟨done, r, rest, k, io, hhead⟩
  · exact absurd hidle.card hleft
  · have hstate : io.state = r.dir.sector := by
      refine hhead.state.resolve_right fun hio => ?_
      refine hsent (r.task, io) ?_ (hio ▸ r.dir.send_cmd)
      rw [hhead.queue]
      exact List.mem_cons_self
    cases rest with
    | cons r' rest =>
      -- A second request would wait with its command to be sent.
      refine absurd r'.dir.send_cmd (hsent r'.waiting ?_)
      rw [hhead.queue]
      exact List.mem_cons_of_mem _ List.mem_cons_self
    | nil =>
      have hlt := hhead.lt
      rcases Nat.lt_or_ge (k + 1) r.count with hmore | hlast
      · have hle : r.count ≤ 256 := by
          refine (h.counts r ?_).2
          rw [hhead.submitted]
          simp
        have hnew := hhead.more hstate hle hmore
        intro e he
        rw [hnew.queue] at he
        have hadvance : (BioRequest.advance io).state = r.dir.sector := by
          rw [BioRequest.advance, if_neg (by have := hhead.count; omega), hstate]
        rw [List.mem_singleton.mp he]
        exact hadvance ▸ r.dir.not_send_sector
      · obtain ⟨hidle, -⟩ := hhead.last hstate (by omega)
        intro e he
        rw [hidle.queue] at he
        cases he

/-! ## A command that is sent again -/

/-- The number of commands in a trace. -/
def commands (trace : List Cf20Event) : ℕ := trace.countP fun | .command _ => true | _ => false

/-- The number of wake-ups in a trace. -/
def wakeUps (trace : List Cf20Event) : ℕ := trace.countP fun | .wakeUp _ => true | _ => false

theorem commands_append (a b : List Cf20Event) : commands (a ++ b) = commands a + commands b :=
  List.countP_append

theorem wakeUps_append (a b : List Cf20Event) : wakeUps (a ++ b) = wakeUps a + wakeUps b :=
  List.countP_append

theorem counts_started (r : Request) (k : ℕ) :
    commands (r.started k) = 1 ∧ wakeUps (r.started k) = 0 := by
  induction k with
  | zero => exact ⟨rfl, rfl⟩
  | succ k ih =>
    have hcommands : commands (r.sectorEvents k) = 0 := by
      simp [commands, Request.sectorEvents]
    have hwakeUps : wakeUps (r.sectorEvents k) = 0 := by
      simp [wakeUps, Request.sectorEvents]
    rw [Request.started_succ, commands_append, wakeUps_append, ih.1, ih.2, hcommands, hwakeUps]
    exact ⟨rfl, rfl⟩

theorem counts_services (done : List Request) :
    commands (done.flatMap Request.service) = done.length ∧
      wakeUps (done.flatMap Request.service) = done.length := by
  induction done with
  | nil => exact ⟨rfl, rfl⟩
  | cons r done ih =>
    obtain ⟨hcommands, hwakeUps⟩ := counts_started r r.count
    rw [List.flatMap_cons, Request.service, commands_append, wakeUps_append, commands_append,
      wakeUps_append, hcommands, hwakeUps, ih.1, ih.2, List.length_cons]
    constructor
    · rw [show commands [.wakeUp r.task] = 0 from rfl]
      omega
    · rw [show wakeUps [.wakeUp r.task] = 1 from rfl]
      omega

/-- In order, there is at most one command more than tasks that were woken up. -/
theorem InOrder.commands_le {s : Cf20} (h : s.InOrder) : commands s.trace ≤ wakeUps s.trace + 1 := by
  obtain ⟨done, rest, -, -, htrace⟩ := h
  obtain ⟨hcommands, hwakeUps⟩ := counts_services done
  cases rest with
  | nil =>
    dsimp only at htrace
    rw [htrace, hcommands, hwakeUps]
    omega
  | cons r rest =>
    obtain ⟨k, -, htrace⟩ := htrace
    obtain ⟨hone, hzero⟩ := counts_started r k
    rw [htrace, commands_append, wakeUps_append, hcommands, hwakeUps, hone, hzero]

theorem AtHead.step_interrupt {s : Cf20} {done : List Request} {r : Request} {rest : List Request} {k : ℕ}
    {io : BioRequest} (h : s.AtHead done r rest k io) : s.step .interrupt = some s.raise.cf20Handler := by
  have hleft : s.card.left ≠ 0 := by
    have hlt := h.lt
    rw [h.left]
    omega
  rw [Cf20.step, if_neg hleft]
  rfl

/-- An interrupt for a request whose command was sent by the handler sends it again, and moves nothing. -/
theorem AtHead.trace_again {s : Cf20} {done : List Request} {r : Request} {rest : List Request} {k : ℕ}
    {io : BioRequest} (h : s.AtHead done r rest k io) (hcmd : io.state = r.dir.cmd) :
    s.raise.cf20Handler.trace =
      s.trace ++ [.interrupt, .command (r.dir.send io.block io.count)] := by
  rw [@cf20Handler_again s.raise r.task io (rest.map Request.waiting) r.dir h.queue hcmd]
  simp [send, log, raise]

/-- An interrupt for a request that waited: its command is sent again. -/
theorem Inv.again {s : Cf20} (h : s.Inv) {op : Op} (hready : ¬ s.Ready op) :
    ∃ s', s.step op = some s' ∧ ¬ s'.InOrder := by
  cases op with
  | readBlock task block count buf => exact absurd trivial hready
  | writeBlock task block count buf => exact absurd trivial hready
  | interrupt =>
    rcases h.queue with hidle | ⟨done, r, rest, k, io, hhead⟩
    · refine absurd (fun head hhead => ?_) hready
      rw [hidle.queue] at hhead
      cases hhead
    · have hcmd : io.state = r.dir.cmd := by
        refine hhead.state.resolve_left fun hsector => hready fun head hmem => ?_
        rw [hhead.queue] at hmem
        obtain rfl : (r.task, io) = head := Option.some.inj hmem
        exact hsector ▸ r.dir.not_send_sector
      refine ⟨s.raise.cf20Handler, hhead.step_interrupt, fun horder => ?_⟩
      -- Two commands were sent for this request, and its task was not woken up.
      have hle := horder.commands_le
      obtain ⟨hcommands, hwakeUps⟩ := counts_services done
      obtain ⟨hone, hzero⟩ := counts_started r k
      rw [hhead.trace_again hcmd, hhead.trace] at hle
      simp only [commands_append, wakeUps_append, hcommands, hwakeUps, hone, hzero] at hle
      rw [show commands [.interrupt, .command (r.dir.send io.block io.count)] = 1 from rfl,
        show wakeUps [.interrupt, .command (r.dir.send io.block io.count)] = 0 from rfl] at hle
      omega

end Cf20

open StepSystem

/-- **The queue of requests, exactly.** The requests are served in order along a run, if and only if no
interrupt of the run finds at the head of the queue a request that was submitted behind another one, and
is still in the state `READ_CMD` or `WRITE_CMD`. -/
theorem cf20_in_order_iff (ops : List Cf20.Op) :
    Always Cf20.step Cf20.InOrder Cf20.initial ops ↔ Steps Cf20.step Cf20.Ready Cf20.initial ops :=
  always_iff_steps
    (fun _ _ _ h _ hready hstep => ⟨h.step hready hstep, (h.step hready hstep).inOrder⟩)
    (fun _ _ h _ hready => h.again hready) Cf20.inv_initial Cf20.inv_initial.inOrder

/-- A submission finds the queue empty. -/
def Cf20.Alone (s : Cf20) : Cf20.Op → Prop
  | .interrupt => True
  | _ => s.requests = []

/-- **One request at a time** is served in order. -/
theorem cf20_in_order_of_empty {ops : List Cf20.Op}
    (h : Steps Cf20.step Cf20.Alone Cf20.initial ops) :
    Always Cf20.step Cf20.InOrder Cf20.initial ops := by
  -- As long as each submission finds the queue empty, no request waits for its command.
  refine Always.imp (P := fun s => s.Inv ∧ s.Sent) (fun s hs => hs.1.inOrder) ?_
  refine always_of_steps ?_ ⟨Cf20.inv_initial, by simp [Cf20.Sent, Cf20.initial]⟩ h
  rintro s op s' ⟨hinv, hsent⟩ halone hstep
  refine ⟨hinv.step (hsent.ready op) hstep, ?_⟩
  cases op with
  | readBlock task block count buf =>
    rw [Cf20.step] at hstep
    split_ifs at hstep
    exact Option.some.inj hstep ▸ hsent.block halone .read task block count buf
  | writeBlock task block count buf =>
    rw [Cf20.step] at hstep
    split_ifs at hstep
    exact Option.some.inj hstep ▸ hsent.block halone .write task block count buf
  | interrupt =>
    rw [Cf20.step] at hstep
    split_ifs at hstep with hleft
    exact Option.some.inj hstep ▸ hinv.sent_interrupt hsent hleft

/-- Two interrupts for two requests of one sector, the second one submitted behind the first: its
command is sent for the second time, and none of its bytes was moved. -/
theorem not_always_inOrder_queued :
    ((run Cf20.step Cf20.initial [.readBlock 1 0 1 0x1000, .readBlock 2 5 1 0x2000, .interrupt,
        .interrupt]).map fun s => (Cf20.commands s.trace, Cf20.wakeUps s.trace, s.trace.length)) =
      some (3, 1, 518) ∧
    ¬ Always Cf20.step Cf20.InOrder Cf20.initial
      [.readBlock 1 0 1 0x1000, .readBlock 2 5 1 0x2000, .interrupt, .interrupt] := by
  have hrun : ((run Cf20.step Cf20.initial [.readBlock 1 0 1 0x1000, .readBlock 2 5 1 0x2000, .interrupt,
        .interrupt]).map fun s => (Cf20.commands s.trace, Cf20.wakeUps s.trace, s.trace.length)) =
      some (3, 1, 518) := by
    let r₁ : Request := ⟨1, .read, 0, 1, 0x1000⟩
    let r₂ : Request := ⟨2, .read, 5, 1, 0x2000⟩
    let s₂ := ((Cf20.initial.cf20Block .read 1 0 1 0x1000).2.cf20Block .read 2 5 1 0x2000).2
    -- The second request waits, the first interrupt sends its command, and so does the second one.
    have hhead : s₂.AtHead [] r₁ [r₂] 0 ⟨.readSector, 0, 1, 0x1000⟩ :=
      ⟨rfl, rfl, by decide, rfl, rfl, Or.inl rfl, rfl, rfl, rfl⟩
    have hnext := hhead.next rfl rfl (by decide) (by decide)
    have htrace := hnext.trace_again rfl
    have hrun : run Cf20.step Cf20.initial [.readBlock 1 0 1 0x1000, .readBlock 2 5 1 0x2000, .interrupt,
        .interrupt] = some s₂.raise.cf20Handler.raise.cf20Handler := by
      show run Cf20.step s₂ [.interrupt, .interrupt] = _
      rw [run_cons, hhead.step_interrupt, Option.bind_some, run_cons, hnext.step_interrupt]
      rfl
    obtain ⟨hcommands, hwakeUps⟩ := Cf20.counts_services ([] ++ [r₁])
    obtain ⟨hone, hzero⟩ := Cf20.counts_started r₂ 0
    rw [hrun, Option.map_some, htrace, hnext.trace]
    simp only [Cf20.commands_append, Cf20.wakeUps_append, hcommands, hwakeUps, hone, hzero]
    refine congrArg some (Prod.ext rfl (Prod.ext rfl ?_))
    simp [Request.service, Request.started, Request.sectorEvents, sectorSz, r₁]
  refine ⟨hrun, fun h => ?_⟩
  obtain ⟨s, hs, hcounts⟩ := Option.map_eq_some_iff.mp hrun
  have hle := (h.last hs).commands_le
  simp only [Prod.mk.injEq] at hcounts
  omega

end I80k.Kernel

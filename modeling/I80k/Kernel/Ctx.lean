import I80k.Lib.RealMode
import I80k.Lib.Run
import I80k.Kernel.Error

/-!
# Context switches

`ctx_switch` as the instructions of `ctx.S`, and `kthread_start`, which builds by hand the stack that the
first switch to a task unwinds. The two agree on one layout: the words that `ctx_switch` pushes, from the
flags up to the return address, are the first fields of `struct bootstrap_stack`.

The system is a set of tasks in the kernel's data segment. The running task changes registers and memory
as it likes, but not the stack or the context of another task; it starts tasks in memory that is free, it
calls `ctx_switch`, and it releases a task that does not run.

## Main definitions

* `ctxSwitch`, `callCtxSwitch`: the routine and its call
* `kthreadStart`: the memory that `kthread_start` leaves
* `World`, `World.step`: the tasks and the running one
* `Continues`, `Enters`: how a task resumes, and how it begins

## Main results

* `saved_suspended`, `restored_of_suspended`: the two halves of `ctx_switch`
* `Inv.step_frozen`, `Inv.run_frozen`: nothing of a task that does not run changes
* `ctxSwitch_resumes`: over every run, each task resumes where it was switched out, and a new task begins
  in its bootstrap function
-/

namespace I80k.Kernel.Ctx

open RealMode StepSystem

/-- `KERNEL_DS`. -/
def kernelDs : Word := 0

/-- `KERNEL_SS`. -/
def kernelSs : Word := 0

/-- `INTERRUPT_ENABLE_FLAG`. -/
def interruptEnableFlag : Word := 1 <<< 9

/-! ## The routine -/

/-- The first half of `ctx_switch`: the registers go to the stack of `prev`, and the stack to its context. -/
def ctxSave : List Instr :=
  [.push .bp,
   .mov .sp .bp,
   .push .si,
   .push .di,
   .push .ds,
   .push .es,
   .pushf,
   -- the context structs
   .load 4 .bp .di,
   .load 6 .bp .si,
   .store .sp 0 .di,
   .store .ss 2 .di]

/-- The second half: the stack of `next`, and the registers that stand on it. -/
def ctxRestore : List Instr :=
  [.load 0 .si .sp,
   .load 2 .si .ss,
   .popf,
   .pop .es,
   .pop .ds,
   .pop .di,
   .pop .si,
   .pop .bp,
   .ret]

def ctxSwitch : List Instr := ctxSave ++ ctxRestore

/-- The machine at the first instruction of `ctx_switch(prev, next)`: the arguments from the right to the
left, then the return address of a near call. -/
def enterCtxSwitch (m : Machine) (prev next ret : Word) : Machine :=
  ((m.pushWord next).pushWord prev).call ret

def callCtxSwitch (m : Machine) (prev next ret : Word) : Machine :=
  execAll (enterCtxSwitch m prev next ret) ctxSwitch

/-! ## `kthread_start` -/

/-- `sizeof(struct bootstrap_stack)`. -/
def bootstrapStackSize : ℕ := 18

/-- The fields of the `struct bootstrap_stack` at `bst` that `kthread_start` sets; `di`, `si`, `bp` and
`_ignored` keep what the memory held. -/
def fillBootstrapStack (bootstrap : Word) (m : Memory) (fn bst : Word) : Memory :=
  let m := writeWord m kernelDs bst interruptEnableFlag
  let m := writeWord m kernelDs (bst + 2) kernelDs
  let m := writeWord m kernelDs (bst + 4) kernelDs
  let m := writeWord m kernelDs (bst + 12) bootstrap
  writeWord m kernelDs (bst + 16) fn

/-- `kthread_start` up to `scheduler_queue_new`: the memory with the bootstrap stack and the context at
`ctx`. `stack` and `ctx` are what `malloc` and `calloc` returned, `bootstrap` is the address of
`_kthread_bootstrap`. -/
def kthreadStart (bootstrap : Word) (m : Memory) (fn : Word) (sz : ℕ) (stack ctx : Option Word) :
    Except Int16 Memory :=
  if sz < bootstrapStackSize then .error errInval else
    match stack, ctx with
    | some stack, some ctx =>
      let bst := stack + BitVec.ofNat 16 sz - BitVec.ofNat 16 bootstrapStackSize
      let m := fillBootstrapStack bootstrap m fn bst
      let m := writeWord m kernelDs (ctx + 2#16) kernelSs
      .ok (writeWord m kernelDs ctx bst)
    | _, _ => .error errNoMem

/-! ## Tasks -/

/-- A task: its stack, and the `struct context` inside its `struct task`, of four bytes. -/
structure Task where
  stack : Region
  ctx : Word
  fits : ctx.toNat + 4 ≤ 2 ^ 16

namespace Task

def context (t : Task) : Region := ⟨t.ctx, 4, t.fits⟩

/-- The stack of a task does not cover its own context. -/
def Separate (t : Task) : Prop := t.stack.Apart t.context

instance (t : Task) : Decidable t.Separate := inferInstanceAs (Decidable (Region.Apart _ _))

/-- Two tasks share no byte. -/
def Apart (t u : Task) : Prop :=
  (t.stack.Apart u.stack ∧ t.stack.Apart u.context) ∧ t.context.Apart u.stack ∧ t.context.Apart u.context

instance (t u : Task) : Decidable (t.Apart u) := inferInstanceAs (Decidable ((_ ∧ _) ∧ _ ∧ _))

/-- The address belongs to the stack or to the context. -/
def Owns (t : Task) (a : Addr) : Prop := t.stack.Covers kernelDs a ∨ t.context.Covers kernelDs a

instance (t : Task) (a : Addr) : Decidable (t.Owns a) := inferInstanceAs (Decidable (_ ∨ _))

/-- The running task can call `ctx_switch`: the segments are those of the kernel, and the stack has room
for the call and the registers. -/
def CanCall (t : Task) (m : Machine) : Prop :=
  m.regs .ss = kernelSs ∧ m.regs .ds = kernelDs ∧
    t.stack.lo.toNat + 18 ≤ (m.regs .sp).toNat ∧ (m.regs .sp).toNat ≤ t.stack.lo.toNat + t.stack.n

instance (t : Task) (m : Machine) : Decidable (t.CanCall m) := inferInstanceAs (Decidable (_ ∧ _ ∧ _ ∧ _))

end Task

/-- The machine, the context of the running task and all the tasks. -/
structure World where
  cpu : Machine
  running : Word
  tasks : List Task

/-- What happens between two instructions of the kernel. -/
inductive Op
  /-- `kthread_start`, with the memory that the allocators returned -/
  | start (fn : Word) (t : Task)
  /-- code of the running task -/
  | work (regs : Reg → Word) (flags : Flags) (writes : List (Addr × Byte))
  /-- `ctx_switch` from the running task -/
  | switch (next ret : Word)
  /-- the stack and the structure of a dead task are released -/
  | reap (ctx : Word)

namespace World

/-- The task with the context `ctx`. -/
def task (w : World) (ctx : Word) : Option Task := w.tasks.find? (·.ctx = ctx)

def step (bootstrap : Word) (w : World) : Op → Option World
  | .start fn t =>
    match kthreadStart bootstrap w.cpu.mem fn t.stack.n (some t.stack.lo) (some t.ctx) with
    | .error _ => some w
    | .ok mem =>
      if t.stack.n < 2 ^ 16 ∧ t.Separate ∧ ∀ u ∈ w.tasks, t.Apart u then
        some { w with cpu := { w.cpu with mem := mem }, tasks := t :: w.tasks }
      else none
  | .work regs flags writes =>
    if ∀ p ∈ writes, ∀ u ∈ w.tasks, u.ctx ≠ w.running → ¬ u.Owns p.1 then
      some { w with
        cpu := { w.cpu with
          regs := regs
          flags := flags
          mem := writes.foldl (fun m p => writeByte m p.1 p.2) w.cpu.mem } }
    else none
  | .switch next ret =>
    match w.task w.running, w.task next with
    | some p, some n =>
      if p.CanCall w.cpu then
        some { w with cpu := callCtxSwitch w.cpu p.ctx n.ctx ret, running := n.ctx }
      else none
    | _, _ => none
  | .reap ctx =>
    if ctx ≠ w.running then some { w with tasks := w.tasks.filter (·.ctx ≠ ctx) } else none

/-- The tasks are apart from each other, and one of them runs. -/
structure Inv (w : World) : Prop where
  separate : ∀ t ∈ w.tasks, t.Separate
  apart : w.tasks.Pairwise Task.Apart
  alive : ∃ t ∈ w.tasks, t.ctx = w.running

end World

/-- The operation neither switches to the task with the context `ctx` nor releases it. -/
def Op.Spares (ctx : Word) : Op → Prop
  | .switch next _ => next ≠ ctx
  | .reap c => c ≠ ctx
  | _ => True

/-- The task `t`, which called `ctx_switch` in the machine `m` with the return address `ret`, goes on after
the call in the machine `m'`. The two arguments are still on the stack. -/
structure Continues (t : Task) (m m' : Machine) (ret : Word) : Prop where
  si : m'.regs .si = m.regs .si
  di : m'.regs .di = m.regs .di
  bp : m'.regs .bp = m.regs .bp
  ds : m'.regs .ds = m.regs .ds
  es : m'.regs .es = m.regs .es
  ss : m'.regs .ss = m.regs .ss
  flags : m'.flags = m.flags
  sp : m'.regs .sp = m.regs .sp - 4
  ip : m'.ip = ret
  stack : ∀ off ∈ t.stack, (m.regs .sp).toNat ≤ off.toNat →
    m'.mem (phys kernelDs off) = m.mem (phys kernelDs off)

/-- The machine is at the first instruction of the function at `bootstrap`, called with the argument `fn`. -/
structure Enters (bootstrap fn : Word) (m : Machine) : Prop where
  ip : m.ip = bootstrap
  arg : readWord m.mem (m.regs .ss) (m.regs .sp + 2) = fn
  interrupts : m.flags.interrupts = true
  ds : m.regs .ds = kernelDs
  es : m.regs .es = kernelDs

/-! ## The two halves of the routine -/

/-- What the call and the first half push. -/
def pushed (m : Machine) (prev next ret : Word) : Machine :=
  m.pushAll [next, prev, ret, m.regs .bp, m.regs .si, m.regs .di, m.regs .ds, m.regs .es, m.flags.toWord]

section Save

variable (m : Machine) (prev next ret : Word)

theorem pushed_stack (hlo : 18 ≤ (m.regs .sp).toNat) :
    (pushed m prev next ret).Stack
      [m.flags.toWord, m.regs .es, m.regs .ds, m.regs .di, m.regs .si, m.regs .bp, ret, prev, next] := by
  have h : m.Stack [] := trivial
  have hhi := (m.regs .sp).isLt
  exact h.pushAll [next, prev, ret, m.regs .bp, m.regs .si, m.regs .di, m.regs .ds, m.regs .es,
    m.flags.toWord] (by simpa using hlo) (by simpa using hhi.le)

theorem pushed_sp : (pushed m prev next ret).regs .sp = m.regs .sp - 18#16 := by
  rw [pushed, Machine.pushAll_sp]
  rfl

theorem pushed_regs {r : Reg} (hr : r ≠ .sp) : (pushed m prev next ret).regs r = m.regs r :=
  Machine.pushAll_regs _ _ hr

/-- The machine after the first half. -/
def saved (m : Machine) (prev next ret : Word) : Machine :=
  execAll (enterCtxSwitch m prev next ret) ctxSave

/-- The machine before the first half loads its arguments. -/
theorem saved_pushes :
    execAll (enterCtxSwitch m prev next ret) (ctxSave.take 7) =
      (pushed m prev next ret).set .bp (m.regs .sp - 8#16) := by
  simp [ctxSave, execAll, exec, enterCtxSwitch, pushed, Machine.pushAll, Machine.pushWord, Machine.call,
    Machine.set]
  funext r
  cases r <;> simp
  bv_omega

theorem saved_eq (hlo : 18 ≤ (m.regs .sp).toNat) (hds : m.regs .ds = kernelDs) (hss : m.regs .ss = kernelSs) :
    (saved m prev next ret).regs .si = next ∧ (saved m prev next ret).regs .ds = kernelDs ∧
    (saved m prev next ret).mem =
      writeWord (writeWord (pushed m prev next ret).mem kernelDs prev (m.regs .sp - 18#16))
        kernelDs (prev + 2#16) kernelSs := by
  have hsplit : ctxSave = ctxSave.take 7 ++
      [.load 4 .bp .di, .load 6 .bp .si, .store .sp 0 .di, .store .ss 2 .di] := rfl
  have hstack := pushed_stack m prev next ret hlo
  have hreg : ∀ r, r ≠ .sp → (pushed m prev next ret).regs r = m.regs r :=
    fun r => pushed_regs m prev next ret
  -- the arguments stand above the return address and the saved bp
  have hdi : readWord (pushed m prev next ret).mem kernelSs (m.regs .sp - 8#16 + 4#16) = prev := by
    have h := Holds.read (i := 7) hstack rfl
    rw [pushed_sp, hreg .ss (by decide), hss] at h
    rwa [show m.regs .sp - 8#16 + 4#16 = m.regs .sp - 18#16 + BitVec.ofNat 16 (2 * 7) by bv_omega]
  have hsi : readWord (pushed m prev next ret).mem kernelSs (m.regs .sp - 8#16 + 6#16) = next := by
    have h := Holds.read (i := 8) hstack rfl
    rw [pushed_sp, hreg .ss (by decide), hss] at h
    rwa [show m.regs .sp - 8#16 + 6#16 = m.regs .sp - 18#16 + BitVec.ofNat 16 (2 * 8) by bv_omega]
  rw [saved, hsplit, execAll_append, saved_pushes]
  simp [execAll, exec, Machine.set, segOf, hreg, hss, hds, hdi, hsi, pushed_sp]

end Save

/-- The second half, from a context that designates seven words. -/
theorem restored {m : Machine} {ctx sp fl es ds di si bp ip : Word} (hds : m.regs .ds = kernelDs)
    (hsi : m.regs .si = ctx) (hsp : readWord m.mem kernelDs ctx = sp)
    (hss : readWord m.mem kernelDs (ctx + 2#16) = kernelSs)
    (h : Holds m.mem kernelSs sp [fl, es, ds, di, si, bp, ip]) :
    execAll m ctxRestore =
      { m with
        regs := fun
          | .ss => kernelSs | .sp => sp + 14#16 | .es => es | .ds => ds | .di => di | .si => si | .bp => bp
          | r => m.regs r
        flags := Flags.ofWord fl
        ip := ip } := by
  simp at h
  simp [ctxRestore, execAll, exec, Machine.set, Machine.drop, Machine.top, segOf, hds, hsi, hsp, hss, h]
  funext r
  cases r <;> simp
  bv_omega

/-- Only the first half writes to memory. -/
theorem callCtxSwitch_mem (m : Machine) (prev next ret : Word) :
    (callCtxSwitch m prev next ret).mem = (saved m prev next ret).mem := by
  rw [callCtxSwitch, ctxSwitch, execAll_append, ← saved]
  simp [execAll, ctxRestore, exec, Machine.set, Machine.drop]

/-! ## Tasks that are switched out -/

/-- The context of `t` designates the words `ws` on its stack. -/
structure Suspended (t : Task) (m : Memory) (sp : Word) (ws : List Word) : Prop where
  sp_eq : readWord m kernelDs t.ctx = sp
  ss_eq : readWord m kernelDs (t.ctx + 2#16) = kernelSs
  words : Holds m kernelSs sp ws
  lo : t.stack.lo.toNat ≤ sp.toNat
  hi : sp.toNat + 2 * ws.length ≤ t.stack.lo.toNat + t.stack.n

/-- No byte of the task changes. -/
structure Frozen (t : Task) (m m' : Memory) : Prop where
  stack : Keeps kernelDs t.stack m m'
  context : Keeps kernelDs t.context m m'

theorem Frozen.refl (t : Task) (m : Memory) : Frozen t m m := ⟨Keeps.refl _ _ _, Keeps.refl _ _ _⟩

theorem Frozen.trans {t : Task} {m m' m'' : Memory} (h : Frozen t m m') (h' : Frozen t m' m'') :
    Frozen t m m'' :=
  ⟨h.stack.trans h'.stack, h.context.trans h'.context⟩

namespace Task

theorem mem_context {t : Task} {off : Word} :
    off ∈ t.context ↔ t.ctx.toNat ≤ off.toNat ∧ off.toNat < t.ctx.toNat + 4 := Iff.rfl

/-- The four bytes of the context. -/
theorem ctx_mem_context (t : Task) :
    t.ctx ∈ t.context ∧ t.ctx + 1 ∈ t.context ∧ t.ctx + 2#16 ∈ t.context ∧ t.ctx + 2#16 + 1 ∈ t.context := by
  have hfits := t.fits
  simp only [mem_context]
  refine ⟨?_, ?_, ?_, ?_⟩
  all_goals bv_omega

theorem Apart.symm {t u : Task} (h : t.Apart u) : u.Apart t :=
  ⟨⟨h.1.1.symm, h.2.1.symm⟩, h.1.2.symm, h.2.2.symm⟩

instance : Std.Symm Task.Apart := ⟨fun _ _ => Apart.symm⟩

end Task

theorem Suspended.keep {t : Task} {m m' : Memory} {sp : Word} {ws : List Word} (h : Suspended t m sp ws)
    (hf : Frozen t m m') : Suspended t m' sp ws := by
  obtain ⟨h₀, h₁, h₂, h₃⟩ := t.ctx_mem_context
  refine ⟨?_, ?_, h.words.keep hf.stack h.lo h.hi, h.lo, h.hi⟩
  · rw [hf.context.readWord h₀ h₁, h.sp_eq]
  · rw [hf.context.readWord h₂ h₃, h.ss_eq]

section Halves

variable {t u : Task} {m : Machine} (hcall : t.CanCall m) (next ret : Word)

include hcall

/-- The first half changes the memory only in the stack and in the context of the task that calls. -/
theorem saved_keeps {r : Region} (hctx : r.Apart t.context)
    (hstack : ∀ off ∈ r, off.toNat + 18 < (m.regs .sp).toNat ∨ (m.regs .sp).toNat ≤ off.toNat) :
    Keeps kernelDs r m.mem (saved m t.ctx next ret).mem := by
  obtain ⟨hss, hds, hlo, -⟩ := hcall
  obtain ⟨h₀, h₁, h₂, h₃⟩ := t.ctx_mem_context
  have hpush : Keeps (m.regs .ss) r m.mem (pushed m t.ctx next ret).mem :=
    m.pushAll_keeps _ (by simp; omega) (by simpa using hstack)
  have hout : ∀ off ∈ t.context, off ∉ r := fun off hoff => hctx.symm.not_mem hoff
  rw [(saved_eq m t.ctx next ret (by omega) hds hss).2.2]
  rw [hss] at hpush
  exact (hpush.writeWord (hout _ h₀) (hout _ h₁)).writeWord (hout _ h₂) (hout _ h₃)

theorem saved_frozen (hapart : u.Apart t) : Frozen u m.mem (saved m t.ctx next ret).mem := by
  have hbounds := hcall.2.2
  have hout : ∀ {r : Region}, r.Apart t.stack →
      ∀ off ∈ r, off.toNat + 18 < (m.regs .sp).toNat ∨ (m.regs .sp).toNat ≤ off.toNat := by
    intro r hr off hoff
    have hnot := hr.not_mem hoff
    rw [Region.mem_iff] at hnot
    omega
  exact ⟨saved_keeps hcall next ret hapart.1.2 (hout hapart.1.1),
    saved_keeps hcall next ret hapart.2.2 (hout hapart.2.1)⟩

/-- The stack above the stack pointer stays. -/
theorem saved_above (hsep : t.Separate) {off : Word} (hoff : off ∈ t.stack)
    (hsp : (m.regs .sp).toNat ≤ off.toNat) :
    (saved m t.ctx next ret).mem (phys kernelDs off) = m.mem (phys kernelDs off) := by
  have hout := hsep.not_mem hoff
  have hone : ∀ o : Word, o ∈ (⟨off, 1, off.isLt⟩ : Region) → o = off := by
    intro o ho
    rw [Region.mem_iff] at ho
    dsimp only at ho
    exact BitVec.eq_of_toNat_eq (by omega)
  apply saved_keeps hcall next ret (r := ⟨off, 1, off.isLt⟩)
  · rw [Task.mem_context] at hout
    unfold Region.Apart Task.context
    dsimp only
    omega
  · intro o ho
    rw [hone o ho]
    exact .inr hsp
  · exact Region.mem_iff.mpr ⟨le_rfl, Nat.lt_succ_self _⟩

/-- After the first half the caller is switched out, with its registers and the return address. -/
theorem saved_suspended (hsep : t.Separate) :
    Suspended t (saved m t.ctx next ret).mem (m.regs .sp - 18#16)
      [m.flags.toWord, m.regs .es, m.regs .ds, m.regs .di, m.regs .si, m.regs .bp, ret] := by
  obtain ⟨hss, hds, hlo, hhi⟩ := hcall
  obtain ⟨h₀, h₁, h₂, h₃⟩ := t.ctx_mem_context
  have hfits := t.fits
  have hmem := (saved_eq m t.ctx next ret (by omega) hds hss).2.2
  have hstack := pushed_stack m t.ctx next ret (by omega)
  rw [Machine.Stack, pushed_sp, pushed_regs _ _ _ _ (by decide), hss] at hstack
  refine ⟨?_, ?_, ?_, by bv_omega, ?_⟩
  · -- the store of ss goes to the second word of the context
    rw [hmem, readWord_writeWord_of_ne _ _ _ (by bv_omega) (by bv_omega) (by bv_omega), readWord_writeWord]
  · rw [hmem, readWord_writeWord]
  · have hkeep : Keeps kernelDs t.stack (pushed m t.ctx next ret).mem (saved m t.ctx next ret).mem := by
      rw [hmem]
      have hout : ∀ off ∈ t.context, off ∉ t.stack := fun off hoff => hsep.symm.not_mem hoff
      exact ((Keeps.refl _ _ _).writeWord (hout _ h₀) (hout _ h₁)).writeWord (hout _ h₂) (hout _ h₃)
    -- the arguments above the return address are not part of the frame
    have hwords : Holds (pushed m t.ctx next ret).mem kernelSs (m.regs .sp - 18#16)
        ([m.flags.toWord, m.regs .es, m.regs .ds, m.regs .di, m.regs .si, m.regs .bp, ret] ++
          [t.ctx, next]) := hstack
    refine hwords.of_append.keep hkeep (by bv_omega) ?_
    simp only [List.length_cons, List.length_nil]
    bv_omega
  · simp only [List.length_cons, List.length_nil]
    bv_omega

/-- A switch to a task whose frame is on its stack loads the registers from there. -/
theorem callCtxSwitch_of_suspended {sp fl es ds di si bp ip : Word} {rest : List Word}
    (h : Suspended u (callCtxSwitch m t.ctx u.ctx ret).mem sp
      (fl :: es :: ds :: di :: si :: bp :: ip :: rest)) :
    callCtxSwitch m t.ctx u.ctx ret =
      { saved m t.ctx u.ctx ret with
        regs := fun
          | .ss => kernelSs | .sp => sp + 14#16 | .es => es | .ds => ds | .di => di | .si => si | .bp => bp
          | r => (saved m t.ctx u.ctx ret).regs r
        flags := Flags.ofWord fl
        ip := ip } := by
  obtain ⟨hss, hds, hlo, -⟩ := hcall
  obtain ⟨hsi, hds', -⟩ := saved_eq m t.ctx u.ctx ret (by omega) hds hss
  rw [callCtxSwitch_mem] at h
  have hwords : Holds (saved m t.ctx u.ctx ret).mem kernelSs sp ([fl, es, ds, di, si, bp, ip] ++ rest) :=
    h.words
  rw [callCtxSwitch, ctxSwitch, execAll_append, ← saved]
  exact restored hds' hsi h.sp_eq h.ss_eq hwords.of_append

end Halves

/-! ## Tasks that have not run -/

section Start

variable (bootstrap : Word) (m : Memory) (fn : Word)

/-- The bootstrap stack is a frame of `ctx_switch`, with the argument of the bootstrap function above its
return address. -/
theorem fillBootstrapStack_holds (bst : Word) :
    ∃ di si bp ignored, Holds (fillBootstrapStack bootstrap m fn bst) kernelDs bst
      [interruptEnableFlag, kernelDs, kernelDs, di, si, bp, bootstrap, ignored, fn] := by
  unfold fillBootstrapStack
  refine ⟨_, _, _, _, ?_, ?_, ?_, rfl, rfl, rfl, ?_, rfl, ?_, trivial⟩
  · iterate 4 rw [readWord_writeWord_of_ne _ _ _ (by bv_omega) (by bv_omega) (by bv_omega)]
    exact readWord_writeWord _ _ _ _
  · iterate 3 rw [readWord_writeWord_of_ne _ _ _ (by bv_omega) (by bv_omega) (by bv_omega)]
    exact readWord_writeWord _ _ _ _
  · rw [show bst + 2 + 2 = bst + 4 by bv_omega]
    iterate 2 rw [readWord_writeWord_of_ne _ _ _ (by bv_omega) (by bv_omega) (by bv_omega)]
    exact readWord_writeWord _ _ _ _
  · rw [show bst + 2 + 2 + 2 + 2 + 2 + 2 = bst + 12 by bv_omega]
    rw [readWord_writeWord_of_ne _ _ _ (by bv_omega) (by bv_omega) (by bv_omega)]
    exact readWord_writeWord _ _ _ _
  · rw [show bst + 2 + 2 + 2 + 2 + 2 + 2 + 2 + 2 = bst + 16 by bv_omega]
    exact readWord_writeWord _ _ _ _

theorem fillBootstrapStack_keeps {bst : Word} {r : Region} (hbst : bst.toNat + 18 ≤ 2 ^ 16)
    (hr : ∀ off ∈ r, off.toNat < bst.toNat ∨ bst.toNat + 18 ≤ off.toNat) :
    Keeps kernelDs r m (fillBootstrapStack bootstrap m fn bst) := by
  have hout : ∀ off : Word, bst.toNat ≤ off.toNat → off.toNat < bst.toNat + 18 → off ∉ r := by
    intro off hlo hhi hmem
    have := hr off hmem
    omega
  unfold fillBootstrapStack
  iterate 5 refine Keeps.writeWord ?_ ?_ ?_
  · exact Keeps.refl _ _ _
  all_goals
    apply hout
    · bv_omega
    · bv_omega

variable (t : Task)

/-- The address of the bootstrap stack of a task. -/
def bst (t : Task) : Word := t.stack.lo + BitVec.ofNat 16 t.stack.n - BitVec.ofNat 16 bootstrapStackSize

/-- The memory after `kthread_start` made the task. -/
def started (bootstrap : Word) (m : Memory) (fn : Word) (t : Task) : Memory :=
  writeWord (writeWord (fillBootstrapStack bootstrap m fn (bst t)) kernelDs (t.ctx + 2#16) kernelSs)
    kernelDs t.ctx (bst t)

theorem kthreadStart_eq :
    kthreadStart bootstrap m fn t.stack.n (some t.stack.lo) (some t.ctx) =
      if t.stack.n < bootstrapStackSize then .error errInval else .ok (started bootstrap m fn t) := rfl

variable {t} {u : Task}

theorem bst_bounds (hsz : bootstrapStackSize ≤ t.stack.n) (hlt : t.stack.n < 2 ^ 16) :
    t.stack.lo.toNat ≤ (bst t).toNat ∧ (bst t).toNat + 18 = t.stack.lo.toNat + t.stack.n := by
  have hfits := t.stack.fits
  unfold bst bootstrapStackSize at *
  bv_omega

theorem started_frozen (hsz : bootstrapStackSize ≤ t.stack.n) (hlt : t.stack.n < 2 ^ 16)
    (hapart : u.Apart t) :
    Frozen u m (started bootstrap m fn t) := by
  obtain ⟨hlo, hbst⟩ := bst_bounds hsz hlt
  have hfits := t.stack.fits
  obtain ⟨h₀, h₁, h₂, h₃⟩ := t.ctx_mem_context
  have hkeep : ∀ r : Region, r.Apart t.stack → r.Apart t.context →
      Keeps kernelDs r m (started bootstrap m fn t) := by
    intro r hstack hctx
    have hout : ∀ off ∈ t.context, off ∉ r := fun off hoff => hctx.symm.not_mem hoff
    have hfill : Keeps kernelDs r m (fillBootstrapStack bootstrap m fn (bst t)) := by
      apply fillBootstrapStack_keeps _ _ _ (by omega)
      intro off hoff
      have hnot := hstack.not_mem hoff
      rw [Region.mem_iff] at hnot
      omega
    exact (hfill.writeWord (hout _ h₂) (hout _ h₃)).writeWord (hout _ h₀) (hout _ h₁)
  exact ⟨hkeep _ hapart.1.1 hapart.1.2, hkeep _ hapart.2.1 hapart.2.2⟩

/-- A new task is switched out, with the bootstrap function as its return address. -/
theorem started_suspended (hsz : bootstrapStackSize ≤ t.stack.n) (hlt : t.stack.n < 2 ^ 16)
    (hsep : t.Separate) :
    ∃ di si bp ignored, Suspended t (started bootstrap m fn t) (bst t)
      [interruptEnableFlag, kernelDs, kernelDs, di, si, bp, bootstrap, ignored, fn] := by
  obtain ⟨hlo, hbst⟩ := bst_bounds hsz hlt
  have hfits := t.stack.fits
  have hcfits := t.fits
  obtain ⟨h₀, h₁, h₂, h₃⟩ := t.ctx_mem_context
  obtain ⟨di, si, bp, ignored, hwords⟩ := fillBootstrapStack_holds bootstrap m fn (bst t)
  have hkeep : Keeps kernelDs t.stack (fillBootstrapStack bootstrap m fn (bst t))
      (started bootstrap m fn t) := by
    have hout : ∀ off ∈ t.context, off ∉ t.stack := fun off hoff => hsep.symm.not_mem hoff
    exact ((Keeps.refl _ _ _).writeWord (hout _ h₂) (hout _ h₃)).writeWord (hout _ h₀) (hout _ h₁)
  have hin : (bst t).toNat +
      2 * [interruptEnableFlag, kernelDs, kernelDs, di, si, bp, bootstrap, ignored, fn].length ≤
      t.stack.lo.toNat + t.stack.n := hbst.le
  refine ⟨di, si, bp, ignored, ?_, ?_, hwords.keep hkeep hlo hin, hlo, hin⟩
  · exact readWord_writeWord _ _ _ _
  · rw [started, readWord_writeWord_of_ne _ _ _ (by bv_omega) (by bv_omega) (by bv_omega), readWord_writeWord]

end Start

/-! ## Steps and runs -/

namespace World

variable {bootstrap : Word} {w w' : World}

theorem task_mem {ctx : Word} {t : Task} (h : w.task ctx = some t) : t ∈ w.tasks ∧ t.ctx = ctx :=
  ⟨List.mem_of_find?_eq_some h, by simpa using List.find?_some h⟩

/-- What each operation does. -/
theorem step_cases {o : Op} (h : w.step bootstrap o = some w') :
    (∃ fn t, o = .start fn t ∧ t.stack.n < bootstrapStackSize ∧ w' = w) ∨
    (∃ fn t, o = .start fn t ∧ bootstrapStackSize ≤ t.stack.n ∧ t.stack.n < 2 ^ 16 ∧ t.Separate ∧
      (∀ u ∈ w.tasks, t.Apart u) ∧
      w' = { w with cpu := { w.cpu with mem := started bootstrap w.cpu.mem fn t }, tasks := t :: w.tasks }) ∨
    (∃ regs flags writes, o = .work regs flags writes ∧
      (∀ p ∈ writes, ∀ u ∈ w.tasks, u.ctx ≠ w.running → ¬ u.Owns p.1) ∧
      w' = { w with
        cpu := { w.cpu with
          regs := regs
          flags := flags
          mem := writes.foldl (fun m p => writeByte m p.1 p.2) w.cpu.mem } }) ∨
    (∃ next ret p n, o = .switch next ret ∧ w.task w.running = some p ∧ w.task next = some n ∧
      p.CanCall w.cpu ∧ w' = { w with cpu := callCtxSwitch w.cpu p.ctx n.ctx ret, running := n.ctx }) ∨
    (∃ ctx, o = .reap ctx ∧ ctx ≠ w.running ∧ w' = { w with tasks := w.tasks.filter (·.ctx ≠ ctx) }) := by
  cases o with
  | start fn t =>
    simp only [step, kthreadStart_eq] at h
    -- A stack that is too small is refused, and nothing is written.
    by_cases hsz : t.stack.n < bootstrapStackSize
    · rw [if_pos hsz] at h
      exact .inl ⟨fn, t, rfl, hsz, (Option.some.inj h).symm⟩
    · rw [if_neg hsz] at h
      dsimp only at h
      split at h
      · next hc =>
        obtain ⟨hlt, hsep, hapart⟩ := hc
        exact .inr (.inl ⟨fn, t, rfl, not_lt.mp hsz, hlt, hsep, hapart, (Option.some.inj h).symm⟩)
      · cases h
  | work regs flags writes =>
    simp only [step] at h
    obtain ⟨hw, h⟩ := Option.ite_none_right_eq_some.mp h
    exact .inr (.inr (.inl ⟨regs, flags, writes, rfl, hw, (Option.some.inj h).symm⟩))
  | switch next ret =>
    simp only [step] at h
    split at h
    · next p n hp hn =>
      obtain ⟨hcall, h⟩ := Option.ite_none_right_eq_some.mp h
      exact .inr (.inr (.inr (.inl ⟨next, ret, p, n, rfl, hp, hn, hcall, (Option.some.inj h).symm⟩)))
    · cases h
  | reap ctx =>
    simp only [step] at h
    obtain ⟨hne, h⟩ := Option.ite_none_right_eq_some.mp h
    exact .inr (.inr (.inr (.inr ⟨ctx, rfl, hne, (Option.some.inj h).symm⟩)))

theorem switch_cases {next ret : Word} (h : w.step bootstrap (.switch next ret) = some w') :
    ∃ p n, w.task w.running = some p ∧ w.task next = some n ∧ p.CanCall w.cpu ∧
      w' = { w with cpu := callCtxSwitch w.cpu p.ctx n.ctx ret, running := n.ctx } := by
  obtain ⟨_, _, ho, -⟩ | ⟨_, _, ho, -⟩ | ⟨_, _, _, ho, -⟩ | ⟨_, _, p, n, ho, hp, hn, hcall, rfl⟩ |
    ⟨_, ho, -⟩ := step_cases h
  all_goals cases ho
  exact ⟨p, n, hp, hn, hcall, rfl⟩

theorem start_cases {fn : Word} {t : Task} (hsz : bootstrapStackSize ≤ t.stack.n)
    (h : w.step bootstrap (.start fn t) = some w') :
    t.stack.n < 2 ^ 16 ∧ t.Separate ∧ (∀ u ∈ w.tasks, t.Apart u) ∧
      w' = { w with
        cpu := { w.cpu with mem := started bootstrap w.cpu.mem fn t }
        tasks := t :: w.tasks } := by
  obtain ⟨_, _, ho, hlt, -⟩ | ⟨_, _, ho, -, hlt, hsep, hapart, rfl⟩ | ⟨_, _, _, ho, -⟩ | ⟨_, _, _, _, ho, -⟩ |
    ⟨_, ho, -⟩ := step_cases h
  all_goals cases ho
  · omega
  · exact ⟨hlt, hsep, hapart, rfl⟩

namespace Inv

theorem step {o : Op} (hi : w.Inv) (h : w.step bootstrap o = some w') : w'.Inv := by
  obtain ⟨-, -, -, -, rfl⟩ | ⟨fn, t, -, -, -, hsep, hapart, rfl⟩ | ⟨-, -, -, -, -, rfl⟩ |
    ⟨_, _, _, n, -, -, hn, -, rfl⟩ | ⟨ctx, -, hne, rfl⟩ := step_cases h
  · exact hi
  · obtain ⟨u, hu, hrun⟩ := hi.alive
    exact ⟨List.forall_mem_cons.mpr ⟨hsep, hi.separate⟩, List.pairwise_cons.mpr ⟨hapart, hi.apart⟩,
      u, List.mem_cons_of_mem _ hu, hrun⟩
  · exact ⟨hi.separate, hi.apart, hi.alive⟩
  · exact ⟨hi.separate, hi.apart, n, (task_mem hn).1, rfl⟩
  · -- the running task is not the one that is released
    obtain ⟨u, hu, hrun⟩ := hi.alive
    have hkeep : u.ctx ≠ ctx := by
      rw [hrun]
      exact hne.symm
    exact ⟨fun t ht => hi.separate t (List.mem_of_mem_filter ht), hi.apart.filter _,
      u, List.mem_filter.mpr ⟨hu, by simpa using hkeep⟩, hrun⟩

theorem run {ops : List Op} (hi : w.Inv) (h : StepSystem.run (World.step bootstrap) w ops = some w') :
    w'.Inv :=
  run_invariant (World.step bootstrap) (fun _ _ _ hi h => hi.step h) hi h

/-- Two tasks with two contexts are apart. -/
theorem apart_of_ne (hi : w.Inv) {t u : Task} (ht : t ∈ w.tasks) (hu : u ∈ w.tasks) (hne : t.ctx ≠ u.ctx) :
    t.Apart u :=
  hi.apart.forall ht hu (fun e => hne (congrArg Task.ctx e))

/-- The context identifies the task. -/
theorem task_of_mem (hi : w.Inv) {t : Task} (ht : t ∈ w.tasks) : w.task t.ctx = some t := by
  obtain ⟨u, hu⟩ : ∃ u, w.task t.ctx = some u := by
    rw [← Option.isSome_iff_exists, World.task, List.find?_isSome]
    exact ⟨t, ht, by simp⟩
  obtain ⟨hmem, hctx⟩ := task_mem hu
  have heq : u = t := by
    by_contra hne
    have hapart := (hi.apart.forall hmem ht hne).2.2
    simp only [Region.Apart, Task.context, hctx] at hapart
    omega
  rw [hu, heq]

/-- **Nothing of a task changes** while it does not run. -/
theorem step_frozen {o : Op} (hi : w.Inv) {t : Task} (ht : t ∈ w.tasks) (hne : t.ctx ≠ w.running)
    (ho : o.Spares t.ctx) (h : w.step bootstrap o = some w') :
    t ∈ w'.tasks ∧ t.ctx ≠ w'.running ∧ Frozen t w.cpu.mem w'.cpu.mem := by
  obtain ⟨-, -, -, -, rfl⟩ | ⟨fn, u, -, hsz, hlt, -, hapart, rfl⟩ | ⟨-, -, writes, -, hw, rfl⟩ |
    ⟨next, ret, p, n, rfl, hp, hn, hcall, rfl⟩ | ⟨ctx, rfl, -, rfl⟩ := step_cases h
  · exact ⟨ht, hne, Frozen.refl _ _⟩
  · exact ⟨List.mem_cons_of_mem _ ht, hne, started_frozen _ _ _ hsz hlt (hapart t ht).symm⟩
  · refine ⟨ht, hne, ?_, ?_⟩
    · exact (Keeps.refl _ _ _).writeBytes fun p hp hc => hw p hp t ht hne (.inl hc)
    · exact (Keeps.refl _ _ _).writeBytes fun p hp hc => hw p hp t ht hne (.inr hc)
  · -- the routine writes to the task that calls it
    obtain ⟨hpmem, hpctx⟩ := task_mem hp
    refine ⟨ht, ?_, ?_⟩
    · rw [(task_mem hn).2]
      exact ho.symm
    · show Frozen t w.cpu.mem (callCtxSwitch w.cpu p.ctx n.ctx ret).mem
      rw [callCtxSwitch_mem]
      exact saved_frozen hcall n.ctx ret (hi.apart_of_ne ht hpmem (hpctx ▸ hne))
  · exact ⟨List.mem_filter.mpr ⟨ht, by simpa using ho.symm⟩, hne, Frozen.refl _ _⟩

theorem run_frozen {ops : List Op} (hi : w.Inv) {t : Task} (ht : t ∈ w.tasks) (hne : t.ctx ≠ w.running)
    (hops : ∀ o ∈ ops, o.Spares t.ctx) (h : StepSystem.run (World.step bootstrap) w ops = some w') :
    t ∈ w'.tasks ∧ t.ctx ≠ w'.running ∧ Frozen t w.cpu.mem w'.cpu.mem := by
  induction ops generalizing w with
  | nil =>
    obtain rfl := Option.some.inj h
    exact ⟨ht, hne, Frozen.refl _ _⟩
  | cons o ops ih =>
    obtain ⟨v, hv, h⟩ := exists_of_run_cons _ h
    obtain ⟨hmem, hrun, hfrozen⟩ := hi.step_frozen ht hne (hops o List.mem_cons_self) hv
    obtain ⟨hmem', hrun', hfrozen'⟩ := ih (hi.step hv) hmem hrun
      (fun o' ho' => hops o' (List.mem_cons_of_mem _ ho')) h
    exact ⟨hmem', hrun', hfrozen.trans hfrozen'⟩

end Inv

/-- A switch to a task that does not run, seen from that task. -/
theorem Inv.switch_to {t : Task} {ret : Word} (hi : w.Inv) (ht : t ∈ w.tasks) (hne : t.ctx ≠ w.running)
    (h : w.step bootstrap (.switch t.ctx ret) = some w') :
    ∃ p : Task, p.CanCall w.cpu ∧ w'.cpu = callCtxSwitch w.cpu p.ctx t.ctx ret ∧
      Frozen t w.cpu.mem (callCtxSwitch w.cpu p.ctx t.ctx ret).mem := by
  obtain ⟨p, n, hp, hn, hcall, rfl⟩ := switch_cases h
  rw [hi.task_of_mem ht] at hn
  obtain rfl := Option.some.inj hn
  obtain ⟨hpmem, hpctx⟩ := task_mem hp
  refine ⟨p, hcall, rfl, ?_⟩
  rw [callCtxSwitch_mem]
  exact saved_frozen hcall t.ctx ret (hi.apart_of_ne ht hpmem (hpctx ▸ hne))

/-- The context of a new task is new. -/
theorem Inv.start_ctx_ne {t : Task} (hi : w.Inv) (hapart : ∀ u ∈ w.tasks, t.Apart u) : t.ctx ≠ w.running := by
  obtain ⟨u, hu, hrun⟩ := hi.alive
  intro e
  have hctx := (hapart u hu).2.2
  simp only [Region.Apart, Task.context, e, hrun] at hctx
  omega

end World

/-- The frame of a task that called `ctx_switch` in the machine `m`. -/
def frame (m : Machine) (ret : Word) : List Word :=
  [m.flags.toWord, m.regs .es, m.regs .ds, m.regs .di, m.regs .si, m.regs .bp, ret]

/-- A task resumes from its frame as it was when it called. -/
theorem continues_of_frame {p t : Task} {m c : Machine} {ret ret' : Word} (hp : p.CanCall c)
    (ht : t.CanCall m)
    (h : Suspended t (callCtxSwitch c p.ctx t.ctx ret').mem (m.regs .sp - 18#16) (frame m ret))
    (hstack : ∀ off ∈ t.stack, (m.regs .sp).toNat ≤ off.toNat →
      (callCtxSwitch c p.ctx t.ctx ret').mem (phys kernelDs off) = m.mem (phys kernelDs off)) :
    Continues t m (callCtxSwitch c p.ctx t.ctx ret') ret := by
  have hcpu := callCtxSwitch_of_suspended hp ret' h
  refine ⟨?_, ?_, ?_, ?_, ?_, ?_, ?_, ?_, ?_, hstack⟩
  all_goals rw [hcpu]
  · exact ht.1.symm
  · exact Flags.ofWord_toWord _
  · show m.regs .sp - 18#16 + 14#16 = m.regs .sp - 4
    bv_omega

section Resume

variable {bootstrap : Word} {s s₁ s₂ s₃ : World} {mid : List Op} {t : Task} {next ret ret' : Word}

/-- Between two of its calls a task is only switched out. -/
theorem continues_later (hi : s.Inv) (ht : s.task s.running = some t) (hne : next ≠ s.running)
    (h₁ : s.step bootstrap (.switch next ret) = some s₁) (hmid : run (World.step bootstrap) s₁ mid = some s₂)
    (hspares : ∀ o ∈ mid, o.Spares s.running) (h₃ : s₂.step bootstrap (.switch s.running ret') = some s₃) :
    Continues t s.cpu s₃.cpu ret := by
  have hi₁ := hi.step h₁
  obtain ⟨p, n, hp, hn, hcall, rfl⟩ := World.switch_cases h₁
  obtain rfl := Option.some.inj (ht.symm.trans hp)
  obtain ⟨hmem, hctx⟩ := World.task_mem ht
  have hsep := hi.separate t hmem
  -- the frame is on the stack after the call, and stays there
  have hframe : Suspended t (callCtxSwitch s.cpu t.ctx n.ctx ret).mem (s.cpu.regs .sp - 18#16)
      (frame s.cpu ret) := by
    rw [callCtxSwitch_mem]
    exact saved_suspended hcall n.ctx ret hsep
  rw [← hctx] at hspares h₃
  have hother : t.ctx ≠ n.ctx := by
    rw [hctx, (World.task_mem hn).2]
    exact hne.symm
  obtain ⟨hmem₂, hne₂, hfrozen⟩ := hi₁.run_frozen hmem hother hspares hmid
  obtain ⟨q, hq, hcpu, hfrozen'⟩ := (hi₁.run hmid).switch_to hmem₂ hne₂ h₃
  have hall := hfrozen.trans hfrozen'
  rw [hcpu]
  refine continues_of_frame hq hcall (hframe.keep hall) ?_
  intro off hoff hsp
  refine (hall.stack off hoff).trans ?_
  show (callCtxSwitch s.cpu t.ctx n.ctx ret).mem (phys kernelDs off) = _
  rw [callCtxSwitch_mem]
  exact saved_above hcall n.ctx ret hsep hoff hsp

theorem continues_self (hi : s.Inv) (ht : s.task s.running = some t)
    (h₁ : s.step bootstrap (.switch s.running ret) = some s₁) : Continues t s.cpu s₁.cpu ret := by
  obtain ⟨p, n, hp, hn, hcall, rfl⟩ := World.switch_cases h₁
  obtain rfl := Option.some.inj (ht.symm.trans hp)
  obtain rfl := Option.some.inj (ht.symm.trans hn)
  have hsep := hi.separate t (World.task_mem ht).1
  apply continues_of_frame hcall hcall
  · rw [callCtxSwitch_mem]
    exact saved_suspended hcall t.ctx ret hsep
  · intro off hoff hsp
    rw [callCtxSwitch_mem]
    exact saved_above hcall t.ctx ret hsep hoff hsp

theorem enters_first {fn : Word} (hi : s.Inv) (h₁ : s.step bootstrap (.start fn t) = some s₁)
    (hsz : bootstrapStackSize ≤ t.stack.n) (hmid : run (World.step bootstrap) s₁ mid = some s₂)
    (hspares : ∀ o ∈ mid, o.Spares t.ctx) (h₃ : s₂.step bootstrap (.switch t.ctx ret) = some s₃) :
    Enters bootstrap fn s₃.cpu := by
  have hi₁ := hi.step h₁
  obtain ⟨hlt, hsep, hapart, rfl⟩ := World.start_cases hsz h₁
  obtain ⟨di, si, bp, ignored, hframe⟩ := started_suspended bootstrap s.cpu.mem fn hsz hlt hsep
  obtain ⟨hmem₂, hne₂, hfrozen⟩ := hi₁.run_frozen List.mem_cons_self (hi.start_ctx_ne hapart) hspares hmid
  obtain ⟨q, hq, hcpu, hfrozen'⟩ := (hi₁.run hmid).switch_to hmem₂ hne₂ h₃
  have hlast := hframe.keep (hfrozen.trans hfrozen')
  have heq := callCtxSwitch_of_suspended hq ret hlast
  -- the argument is the ninth word of the frame, above the ignored return address
  have harg := Holds.read (i := 8) hlast.words rfl
  have hss : (callCtxSwitch s₂.cpu q.ctx t.ctx ret).regs .ss = kernelSs := by rw [heq]
  have hsp : (callCtxSwitch s₂.cpu q.ctx t.ctx ret).regs .sp = bst t + 14#16 := by rw [heq]
  rw [hcpu]
  refine ⟨?_, ?_, ?_, ?_, ?_⟩
  · rw [heq]
  · rw [hss, hsp, show bst t + 14#16 + 2 = bst t + BitVec.ofNat 16 (2 * 8) by bv_omega]
    exact harg
  all_goals rw [heq]
  · show (Flags.ofWord interruptEnableFlag).interrupts = true
    decide

end Resume

/-- **Context switches preserve every task**. In every run a task that is switched out continues, at the
next switch to it, after its own call, with its registers, its flags, its stack and its return address; so
does a task that switches to itself. The first switch to a task that `kthread_start` made enters the
bootstrap function with the task's function as the argument. -/
theorem ctxSwitch_resumes (bootstrap : Word) {boot s : World} {pre : List Op} (hboot : boot.Inv)
    (hrun : run (World.step bootstrap) boot pre = some s) :
    (∀ t next ret s₁ mid s₂ ret' s₃, s.task s.running = some t → next ≠ s.running →
      s.step bootstrap (.switch next ret) = some s₁ → run (World.step bootstrap) s₁ mid = some s₂ →
      (∀ o ∈ mid, o.Spares s.running) → s₂.step bootstrap (.switch s.running ret') = some s₃ →
      Continues t s.cpu s₃.cpu ret) ∧
    (∀ t ret s₁, s.task s.running = some t → s.step bootstrap (.switch s.running ret) = some s₁ →
      Continues t s.cpu s₁.cpu ret) ∧
    (∀ fn t s₁ mid s₂ ret s₃, s.step bootstrap (.start fn t) = some s₁ → bootstrapStackSize ≤ t.stack.n →
      run (World.step bootstrap) s₁ mid = some s₂ → (∀ o ∈ mid, o.Spares t.ctx) →
      s₂.step bootstrap (.switch t.ctx ret) = some s₃ → Enters bootstrap fn s₃.cpu) := by
  have hi : s.Inv := hboot.run hrun
  refine ⟨?_, ?_, ?_⟩
  · intro t next ret s₁ mid s₂ ret' s₃ ht hne h₁ hmid hspares h₃
    exact continues_later hi ht hne h₁ hmid hspares h₃
  · intro t ret s₁ ht h₁
    exact continues_self hi ht h₁
  · intro fn t s₁ mid s₂ ret s₃ h₁ hsz hmid hspares h₃
    exact enters_first hi h₁ hsz hmid hspares h₃

/-- A call with room on the stack is made. -/
theorem World.exists_switch (bootstrap : Word) {w : World} {p n : Task} {next : Word} (ret : Word)
    (hp : w.task w.running = some p) (hn : w.task next = some n) (hcall : p.CanCall w.cpu) :
    ∃ w', w.step bootstrap (.switch next ret) = some w' ∧ w'.running = n.ctx ∧ w'.tasks = w.tasks := by
  simp [World.step, hp, hn, hcall]

theorem World.exists_start (bootstrap : Word) {w : World} {t : Task} (fn : Word)
    (hsz : bootstrapStackSize ≤ t.stack.n) (hlt : t.stack.n < 2 ^ 16) (hsep : t.Separate)
    (hapart : ∀ u ∈ w.tasks, t.Apart u) :
    ∃ w', w.step bootstrap (.start fn t) = some w' ∧ w'.tasks = t :: w.tasks ∧ w'.running = w.running ∧
      w'.cpu.regs = w.cpu.regs := by
  simp only [World.step, kthreadStart_eq, if_neg (not_lt.mpr hsz)]
  rw [if_pos ⟨hlt, hsep, hapart⟩]
  exact ⟨_, rfl, rfl, rfl, rfl⟩

/-- Code that only computes in registers. -/
theorem World.exists_work (bootstrap : Word) (w : World) (regs : Reg → Word) (flags : Flags) :
    ∃ w', run (World.step bootstrap) w [.work regs flags []] = some w' ∧ w'.tasks = w.tasks ∧
      w'.running = w.running ∧ w'.cpu.regs = regs := by
  have hout : ∀ p ∈ ([] : List (Addr × Byte)), ∀ u ∈ w.tasks, u.ctx ≠ w.running → ¬ u.Owns p.1 :=
    List.forall_mem_nil _
  rw [run_cons, World.step, if_pos hout]
  exact ⟨_, rfl, rfl, rfl, rfl⟩

/-- The kernel's main task, before it starts another one. -/
def mainTask : Task := ⟨⟨0x8000, 0x100, by decide⟩, 0x7000, by decide⟩

def otherTask : Task := ⟨⟨0x9000, 510, by decide⟩, 0x7100, by decide⟩

def mainRegs : Reg → Word
  | .sp => 0x80F0 | .si => 1 | .di => 2 | .bp => 0x80F8 | .es => 0x1234
  | _ => 0

def otherRegs : Reg → Word
  | .sp => 0x9100 | .si => 7
  | _ => 0

def mainWorld : World := ⟨⟨mainRegs, Flags.ofWord 0x246, 0x500, fun _ => 0⟩, 0x7000, [mainTask]⟩

/-- The main task starts another one and switches to it; it gets control back after the other one has run. -/
theorem ctxSwitch_resumes_main :
    mainWorld.Inv ∧ ∃ s₁ s₂ s₃ s₄,
      mainWorld.step 0x300 (.start 0x400 otherTask) = some s₁ ∧
      s₁.step 0x300 (.switch 0x7100 0x510) = some s₂ ∧
      run (World.step 0x300) s₂ [.work otherRegs (Flags.ofWord 0) []] = some s₃ ∧
      s₃.step 0x300 (.switch 0x7000 0x410) = some s₄ ∧
      Enters 0x300 0x400 s₂.cpu ∧ Continues mainTask s₁.cpu s₄.cpu 0x510 := by
  have hinv : mainWorld.Inv := ⟨by decide, by decide, mainTask, List.mem_cons_self, rfl⟩
  -- The other task is started, switched to, runs, and switches back.
  obtain ⟨s₁, h₁, htasks₁, hrun₁, hregs₁⟩ :=
    mainWorld.exists_start 0x300 (t := otherTask) 0x400 (by decide) (by decide) (by decide) (by decide)
  change s₁.tasks = [otherTask, mainTask] at htasks₁
  change s₁.running = 0x7000 at hrun₁
  change s₁.cpu.regs = mainRegs at hregs₁
  have hmain₁ : s₁.task 0x7000 = some mainTask := by simp [World.task, htasks₁, otherTask, mainTask]
  have hother₁ : s₁.task 0x7100 = some otherTask := by simp [World.task, htasks₁, otherTask]
  obtain ⟨s₂, h₂, hrun₂, htasks₂⟩ := s₁.exists_switch 0x300 0x510 (by rw [hrun₁, hmain₁]) hother₁ (by
    simp only [Task.CanCall, hregs₁]
    decide)
  obtain ⟨s₃, h₃, htasks₃, hrun₃, hregs₃⟩ := s₂.exists_work 0x300 otherRegs (Flags.ofWord 0)
  have htasks : s₃.tasks = [otherTask, mainTask] := by rw [htasks₃, htasks₂, htasks₁]
  have hmain₃ : s₃.task 0x7000 = some mainTask := by simp [World.task, htasks, otherTask, mainTask]
  have hother₃ : s₃.task s₃.running = some otherTask := by simp [World.task, htasks, hrun₃, hrun₂]
  obtain ⟨s₄, h₄, -, -⟩ := s₃.exists_switch 0x300 0x410 hother₃ hmain₃ (by
    simp only [Task.CanCall, hregs₃]
    decide)
  have hstart : run (World.step 0x300) mainWorld [.start 0x400 otherTask] = some s₁ := by
    rw [run_cons, h₁]
    rfl
  refine ⟨hinv, s₁, s₂, s₃, s₄, h₁, h₂, h₃, h₄, ?_, ?_⟩
  · exact (ctxSwitch_resumes 0x300 hinv (run_nil _ _)).2.2 0x400 otherTask s₁ [] s₁ 0x510 s₂ h₁ (by decide)
      (run_nil _ _) (by simp) h₂
  · refine (ctxSwitch_resumes 0x300 hinv hstart).1 mainTask 0x7100 0x510 s₂
      [.work otherRegs (Flags.ofWord 0) []] s₃ 0x410 s₄ ?_ ?_ h₂ h₃ (by simp [Op.Spares]) ?_
    · rw [hrun₁, hmain₁]
    · rw [hrun₁]
      decide
    · rw [hrun₁, h₄]

end I80k.Kernel.Ctx

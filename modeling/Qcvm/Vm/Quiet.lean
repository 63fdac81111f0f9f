import Qcvm.Vm.Calls
import Qcvm.Vm.Context
import Qcvm.Vm.Layout

/-!
# What host calls leave alone

Most of what `Vm::call` and `Vm::run_threads` do around the interpreter is bookkeeping: warnings,
strings, words written to region S. Such a change is quiet: it keeps the sizes of memory, the progs,
the sleeping threads, and the control part of the core, which is what a host call saves and restores.
-/

namespace Qcvm

open Lib

/-- The part of a core that a host call saves and restores. -/
structure Control extends Context where
  nesting : Nat
  entryDepth : Nat
  argc : Nat
  builtin : FuncRef

namespace Core

/-- The control part of a core. -/
def control (core : Core) : Control :=
  ⟨core.context, core.nesting, core.entryDepth, core.argc, core.builtin⟩

/-- Memory is laid out the same, for the same progs. -/
structure Plain (core core' : Core) : Prop where
  shape : core'.mem.shape = core.mem.shape
  progs : core'.progs = core.progs
  fields : core'.fields = core.fields
  config : core'.config = core.config

/-- Neither control nor the sleeping threads change. -/
structure Quiet (core core' : Core) : Prop extends Plain core core' where
  control : core'.control = core.control
  threads : core'.threads = core.threads
  abortRet : core.abortRet = none → core'.abortRet = none

variable {core core' core'' : Core}

/-- A core is plain over itself. -/
lemma Plain.refl (core : Core) : Plain core core := ⟨rfl, rfl, rfl, rfl⟩

/-- Plain changes in sequence are plain. -/
lemma Plain.trans (a : Plain core core') (b : Plain core' core'') : Plain core core'' :=
  ⟨b.shape.trans a.shape, b.progs.trans a.progs, b.fields.trans a.fields, b.config.trans a.config⟩

/-- A core is quiet over itself. -/
lemma Quiet.refl (core : Core) : Quiet core core := ⟨.refl core, rfl, rfl, id⟩

/-- Quiet changes in sequence are quiet. -/
lemma Quiet.trans (a : Quiet core core') (b : Quiet core' core'') : Quiet core core'' :=
  ⟨a.toPlain.trans b.toPlain, b.control.trans a.control, b.threads.trans a.threads,
    fun e => b.abortRet (a.abortRet e)⟩

/-- The interpreter changes nothing a plain change may not. -/
lemma Moved.plain (a : Moved core core') : Plain core core' :=
  ⟨a.mem.shape, congrArg Fixed.progs a.fixed, congrArg Fixed.fields a.fixed,
    congrArg Fixed.config a.fixed⟩

/-- A plain change keeps the order of the regions. -/
lemma Plain.regions (a : Plain core core') (l : core.mem.Regions) : core'.mem.Regions :=
  l.of_shape a.shape

/-- A plain change keeps the layout. -/
lemma Plain.layout (a : Plain core core') (l : core.Layout) : core'.Layout :=
  l.of_shape a.shape a.fields

/-- Replacing the memory by one of the same shape is quiet. -/
lemma Quiet.withMem {m : Memory} (shape : m.shape = core.mem.shape) :
    Quiet core { core with mem := m } :=
  ⟨⟨shape, rfl, rfl, rfl⟩, rfl, rfl, id⟩

/-- A warning is quiet. -/
lemma quiet_warn (core : Core) (kind : WarningKind) : Quiet core (core.warn kind) := by
  unfold warn
  dsimp only
  split <;> exact ⟨⟨rfl, rfl, rfl, rfl⟩, rfl, rfl, id⟩

/-- Reading an argument is quiet. -/
lemma quiet_argWords (core : Core) (arg : Arg) : Quiet core (core.argWords arg).2 := by
  cases arg with
  | bytes text =>
    simp only [argWords]
    split <;> exact ⟨⟨rfl, rfl, rfl, rfl⟩, rfl, rfl, id⟩
  | _ => exact .refl core

/-- Writing arguments from an offset on is quiet. -/
lemma quiet_writeArgsFrom (off : Nat) (args : List Arg) (core : Core) :
    Quiet core (writeArgsFrom off args core).2 := by
  induction args generalizing off core with
  | nil => exact .refl core
  | cons arg args ih =>
    have first := quiet_argWords core arg
    simp only [writeArgsFrom]
    split
    next kind after e =>
      rw [e] at first
      exact first
    next words after e =>
      rw [e] at first
      exact first.trans (.trans (.withMem (Memory.shape_setGs _ _ _)) (ih _ _))

/-- Writing the arguments of a call is quiet. -/
lemma quiet_writeArgs (core : Core) (pr : Nat) (args : List Arg) :
    Quiet core (core.writeArgs pr args).2 := by
  unfold writeArgs
  split
  next => exact .refl core
  next => exact quiet_writeArgsFrom _ _ _

/-- Setting the return value is quiet. -/
lemma quiet_retRaw (core : Core) (words : List Word) : Quiet core (core.retRaw words) :=
  .withMem (Memory.shape_setGs _ _ _)

/-- A collection is quiet. -/
lemma quiet_collectGarbageNow (core : Core) : Quiet core core.collectGarbageNow :=
  ⟨⟨rfl, rfl, rfl, rfl⟩, rfl, rfl, id⟩

/-- Setting a field of the state machine is quiet. -/
lemma quiet_setStateField (core : Core) (e : Word) (field : Option Nat) (v : Word) :
    Quiet core (core.setStateField e field v) := by
  unfold setStateField
  split
  next => exact .withMem rfl
  next => exact .refl core

/-- Setting a global of the state machine is quiet. -/
lemma quiet_setStateGlobal (core : Core) (off : Option Nat) (v : Word) :
    Quiet core (core.setStateGlobal off v) := by
  unfold setStateGlobal
  split
  next => exact .withMem rfl
  next => exact .refl core

/-- A cycle of the state machine is quiet. -/
lemma quiet_cycleState (core : Core) (F : FloatOps) (h : StateHandles) (this wake first last : Word)
    (func : FuncRef) (frameF : Option Nat) :
    Quiet core (core.cycleState F h this wake first last func frameF) := by
  have start := ((quiet_setStateField core this h.nextthinkF wake).trans
    (quiet_setStateField _ this h.thinkF func.bits)).trans
    (quiet_setStateGlobal _ h.cycleWrappedG 0)
  unfold cycleState
  dsimp only
  split
  next => exact start
  next =>
    split
    next => exact start.trans ((quiet_setStateGlobal _ _ _).trans (.withMem rfl))
    next => exact start.trans (.withMem rfl)

/-- The state operations of the VM are quiet. -/
lemma quiet_defaultStateOp (core : Core) (F : FloatOps) (op : StateOp) :
    Quiet core (core.defaultStateOp F op) := by
  unfold defaultStateOp
  split
  next => exact .refl core
  next =>
    dsimp only
    split
    next =>
      split
      next =>
        exact ((quiet_setStateField _ _ _ _).trans (quiet_setStateField _ _ _ _)).trans
          (quiet_setStateField _ _ _ _)
      next => exact quiet_cycleState _ _ _ _ _ _ _ _ _
      next => exact quiet_cycleState _ _ _ _ _ _ _ _ _
      next => exact quiet_setStateField _ _ _ _
    next => exact quiet_warn _ _

/-- Entering the functions of a thread is plain. -/
lemma plain_enterChain (chain : List Activation) (resumePc : Nat) (core : Core) :
    Plain core (enterChain chain resumePc core).2 := by
  induction chain generalizing resumePc core with
  | nil => exact ⟨rfl, rfl, rfl, rfl⟩
  | cons a chain ih =>
    have first := (moved_enter core a.prnum a.func resumePc).plain
    simp only [enterChain]
    split
    next kind entered e =>
      rw [e] at first
      exact first
    next entered e =>
      rw [e] at first
      refine first.trans ?_
      have registers (x : Exec) : Plain entered { entered with x := x } := ⟨rfl, rfl, rfl, rfl⟩
      exact (registers _).trans (ih _ _)

/-- Restoring the captured locals keeps the size of the region. -/
lemma size_restoreCaptured (s : Arr Byte) (ranges : List (Nat × Nat)) (data : List Byte) :
    (restoreCaptured s ranges data).size = s.size := by
  induction ranges generalizing s data with
  | nil => rfl
  | cons range ranges ih => exact ih _ _

/-- Restoring what a thread captured is plain. -/
lemma plain_restoreThread (core : Core) (thread : Thread) (depth : Nat) :
    Plain core (core.restoreThread thread depth) := by
  refine ⟨?_, rfl, rfl, rfl⟩
  have selves (l : List (Nat × Word × Nat)) (m : Memory) :
      (l.foldl restoreSelf m).shape = m.shape :=
    Memory.shape_foldl (f := restoreSelf) (fun _ _ => rfl) l m
  simp only [restoreThread, selves, Memory.shape_setGs]
  simp only [Memory.shape, size_restoreCaptured, Arr.size_write]

/-- Resuming a thread is plain. -/
lemma plain_resumeThread (core : Core) (thread : Thread) :
    Plain core (core.resumeThread thread).2 := by
  have chain := plain_enterChain thread.chain core.x.pc core
  unfold resumeThread
  dsimp only
  split
  next kind entered e =>
    rw [e] at chain
    exact chain.trans (moved_unwind _ _).plain
  next entered e =>
    rw [e] at chain
    exact chain.trans (plain_restoreThread _ _ _)

/-- Leaving a function looks neither at the warnings nor at a result to abort with. -/
lemma leave_with (core : Core) (w : List Warning) (r : Option AbortRet) :
    leave { core with warnings := w, abortRet := r }
      = { core.leave with warnings := w, abortRet := r } := by
  unfold leave restoreLocals
  dsimp only
  cases core.frames with
  | nil => rfl
  | cons frame frames =>
    dsimp only
    split
    next =>
      unfold switchOut
      dsimp only
      split <;> rfl
    next => rfl

/-- Unwinding reads neither the warnings nor the abort value. -/
lemma unwind_with (core : Core) (w : List Warning) (r : Option AbortRet) (depth : Nat) :
    { core with warnings := w, abortRet := r }.unwind depth
      = { core.unwind depth with warnings := w, abortRet := r } := by
  unfold unwind
  dsimp only
  generalize core.frames.length - depth = n
  induction n generalizing core with
  | zero => rfl
  | succ n ih => rw [Function.iterate_succ_apply, Function.iterate_succ_apply, leave_with, ih]

/-- Unwinding keeps the warnings. -/
lemma warnings_unwind (core : Core) (depth : Nat) : (core.unwind depth).warnings = core.warnings := by
  have kept := congrArg warnings (core.unwind_with core.warnings core.abortRet depth)
  exact kept

/-- Unwinding does not read the abort value. -/
lemma unwind_withAbort (core : Core) (r : Option AbortRet) (depth : Nat) :
    { core with abortRet := r }.unwind depth = { core.unwind depth with abortRet := r } := by
  refine (core.unwind_with core.warnings r depth).trans ?_
  rw [← core.warnings_unwind depth]

/-- Unwinding changes the context only. -/
lemma control_unwind (core : Core) (depth : Nat) : (core.unwind depth).control
    = { core.control with toContext := core.context.unwind core.resets depth } := by
  have argc : (core.unwind depth).argc = core.argc := by
    unfold unwind
    generalize core.frames.length - depth = n
    induction n generalizing core with
    | zero => rfl
    | succ n ih =>
      rw [Function.iterate_succ_apply, ih]
      unfold leave
      dsimp only
      split
      next => rfl
      next =>
        split
        next =>
          unfold switchOut
          split <;> rfl
        next => rfl
  have fixed := (core.moved_unwind depth).fixed
  have nesting : (core.unwind depth).nesting = core.nesting := congrArg Fixed.nesting fixed
  have entryDepth : (core.unwind depth).entryDepth = core.entryDepth := congrArg Fixed.entryDepth fixed
  have builtin : (core.unwind depth).builtin = core.builtin := congrArg Fixed.builtin fixed
  unfold control
  rw [core.context_unwind, argc, nesting, entryDepth, builtin]

/-! ## Host operations -/

/-- Adding a progs changes memory, the fields, and the progs and what they share. -/
lemma addProgs_eq (core : Core) (F : FloatOps) (program : Program) (builtins : Builtins)
    (reserved : Bool) : ∃ mem fields progs shared,
      (core.addProgs F program builtins reserved).2
        = { core with mem := mem, fields := fields, progs := progs, shared := shared } ∧
      mem.lsBase = core.mem.lsBase ∧ mem.lsWords = core.mem.lsWords := by
  rcases addProgs_cases F core program builtins reserved with
    ⟨-, _, e⟩ | ⟨map, fields, fieldBytes, -, -, -, ⟨-, e⟩ | ⟨-, e⟩⟩
  · exact ⟨_, _, _, _, congrArg Prod.snd e, rfl, rfl⟩
  · exact ⟨_, _, _, _, congrArg Prod.snd e, rfl, rfl⟩
  · obtain ⟨mem, fields', progs, shared, linked⟩ : ∃ mem fields' progs shared,
        (core.joined F program builtins map fields fieldBytes).linkExterns
          = { core with mem := mem, fields := fields', progs := progs, shared := shared } := by
      unfold joined linkExterns registerShared
      dsimp only
      split <;> exact ⟨_, _, _, _, rfl⟩
    have shape := (shape_linkExterns (core.joined F program builtins map fields fieldBytes)).trans
      shape_joined
    rw [linked] at shape
    exact ⟨mem, fields', progs, shared, (congrArg Prod.snd e).trans linked,
      congrArg Memory.Shape.lsBase shape, congrArg Memory.Shape.lsWords shape⟩

/-- What a host operation leaves alone: control always, the threads but for a suspended one, and the
progs and the size of region S but for an added progs. -/
structure Hosted (F : FloatOps) (op : HostOp) (core core' : Core) : Prop where
  control : core'.control = core.control
  abortRet : core'.abortRet = core.abortRet
  limits : core'.config.limits = core.config.limits
  compat : core'.config.compat = core.config.compat
  threads : core'.threads = core.threads ∨ ∃ delay resume thread, op = .suspend delay resume ∧
    core.snapshot (F.add core.qcTime delay) resume = some thread ∧
    core.threads.length < core.config.limits.threads ∧
    thread.data.length + threadBytes core.threads ≤ core.config.limits.threadBytes ∧
    core'.threads = core.threads ++ [thread]
  stack : core'.mem.lsBase = core.mem.lsBase ∧ core'.mem.lsWords = core.mem.lsWords
  progs : (core'.progs = core.progs ∧ core'.mem.s.size = core.mem.s.size) ∨
    ∃ loaded reserved, op = .addProgs loaded reserved

/-- Replacing the memory by one with the same region S and local stack is hosted. -/
lemma Hosted.withMem {F : FloatOps} {op : HostOp} {core : Core} {m : Memory}
    (size : m.s.size = core.mem.s.size)
    (stack : m.lsBase = core.mem.lsBase ∧ m.lsWords = core.mem.lsWords) :
    Hosted F op core { core with mem := m } :=
  ⟨rfl, rfl, rfl, rfl, .inl rfl, stack, .inl ⟨rfl, size⟩⟩

/-- A memory of the same shape. -/
lemma Hosted.withShape {F : FloatOps} {op : HostOp} {core : Core} {m : Memory}
    (e : m.shape = core.mem.shape) : Hosted F op core { core with mem := m } :=
  .withMem (congrArg Memory.Shape.sSize e)
    ⟨congrArg Memory.Shape.lsBase e, congrArg Memory.Shape.lsWords e⟩

/-- Doing nothing is hosted. -/
lemma Hosted.refl {F : FloatOps} {op : HostOp} (core : Core) : Hosted F op core core := .withShape rfl

/-- A warning is hosted. -/
lemma hosted_warn {F : FloatOps} {op : HostOp} (core : Core) (kind : WarningKind) :
    Hosted F op core (core.warn kind) := by
  unfold warn
  dsimp only
  split <;> exact ⟨rfl, rfl, rfl, rfl, .inl rfl, ⟨rfl, rfl⟩, .inl ⟨rfl, rfl⟩⟩

/-- Drawing a random number is hosted. -/
lemma hosted_rng {F : FloatOps} {op : HostOp} (core : Core) (rng : Rng) :
    Hosted F op core { core with rng := rng } :=
  ⟨rfl, rfl, rfl, rfl, .inl rfl, ⟨rfl, rfl⟩, .inl ⟨rfl, rfl⟩⟩

/-- Memories of one shape have regions S of one size. -/
lemma size_of_shape {m m' : Memory} (e : m'.shape = m.shape) : m'.s.size = m.s.size :=
  congrArg Memory.Shape.sSize e

/-- A spawn keeps region S and the local stack. -/
lemma s_spawn {F : FloatOps} {m m' : Memory} {now : DWord} {first e : Nat}
    (h : m.spawn F now first = .ok (e, m')) :
    m'.s = m.s ∧ m'.lsBase = m.lsBase ∧ m'.lsWords = m.lsWords := by
  unfold Memory.spawn at h
  dsimp only at h
  split at h
  next =>
    cases h
    exact ⟨rfl, rfl, rfl⟩
  next =>
    split at h
    next =>
      cases h
      exact ⟨rfl, rfl, rfl⟩
    next =>
      split at h
      next =>
        cases h
        exact ⟨rfl, rfl, rfl⟩
      next => cases h

/-- A claim keeps region S and the local stack. -/
lemma s_claim {m m' : Memory} {e : Nat} (h : m.claim e = .ok m') :
    m'.s = m.s ∧ m'.lsBase = m.lsBase ∧ m'.lsWords = m.lsWords := by
  unfold Memory.claim at h
  split at h
  next => cases h
  next =>
    cases h
    split <;> exact ⟨rfl, rfl, rfl⟩

/-- An entity that was taken into use. -/
lemma hosted_taken {F : FloatOps} {op : HostOp} (core : Core) {m : Memory} (e : Nat)
    (same : m.s = core.mem.s ∧ m.lsBase = core.mem.lsBase ∧ m.lsWords = core.mem.lsWords) :
    Hosted F op core ({ core with mem := m }.applySpawnDefaults e) := by
  have shape := shape_applySpawnDefaults { core with mem := m } e
  exact .withMem ((size_of_shape shape).trans (congrArg Arr.size same.1))
    ⟨(congrArg Memory.Shape.lsBase shape).trans same.2.1,
      (congrArg Memory.Shape.lsWords shape).trans same.2.2⟩

/-- Every host operation leaves alone what `Hosted` says. -/
theorem hosted {F : FloatOps} {builtins : Builtins} (core : Core) (op : HostOp) :
    Hosted F op core (core.host F builtins op) := by
  cases op with
  | setGlobal off v => exact .withShape rfl
  | setField e word v =>
    simp only [host]
    split
    next => exact .withShape rfl
    next => exact .refl core
  | writeMem p bytes =>
    simp only [host]
    split
    next written => exact .withShape (Memory.shape_write written)
    next => exact .refl core
  | writeHeap off bytes => exact .withMem rfl ⟨rfl, rfl⟩
  | writeTemp slot start bytes =>
    simp only [host, writeTemp]
    split
    next => exact .refl core
    next => exact ⟨rfl, rfl, rfl, rfl, .inl rfl, ⟨rfl, rfl⟩, .inl ⟨rfl, rfl⟩⟩
  | spawn now =>
    simp only [host]
    split
    next spawned => exact hosted_taken core _ (s_spawn spawned)
    next => exact .refl core
  | claim e =>
    simp only [host]
    split
    next claimed => exact hosted_taken core _ (s_claim claimed)
    next => exact .refl core
  | remove e now instant =>
    simp only [host]
    split
    next removed => exact .withShape (Memory.shape_remove removed)
    next => exact hosted_warn _ _
  | setGuarded e on => exact .withMem rfl ⟨rfl, rfl⟩
  | ensureField name ty words =>
    simp only [host, ensureField]
    split
    next =>
      split
      next =>
        split
        next => exact .refl core
        next => exact ⟨rfl, rfl, rfl, rfl, .inl rfl, ⟨rfl, rfl⟩, .inl ⟨rfl, rfl⟩⟩
      next => exact .refl core
    next => exact .refl core
  | heapAlloc n => exact .withMem rfl ⟨rfl, rfl⟩
  | heapFree off => exact .withMem rfl ⟨rfl, rfl⟩
  | heapRealloc old n => exact .withMem rfl ⟨rfl, rfl⟩
  | warn msg => exact hosted_warn _ _
  | rand => exact hosted_rng core _
  | suspend delay resume =>
    simp only [host]
    rcases core.suspend_snd F delay resume with same | ⟨thread, captured, few, small, next⟩
    · rw [same]
      exact .refl core
    · rw [next]
      exact ⟨rfl, rfl, rfl, rfl, .inr ⟨delay, resume, thread, rfl, captured, few, small, rfl⟩,
        ⟨rfl, rfl⟩, .inl ⟨rfl, rfl⟩⟩
  | collectGarbage =>
    simp only [host]
    split
    next => exact .refl core
    next => exact ⟨rfl, rfl, rfl, rfl, .inl rfl, ⟨rfl, rfl⟩, .inl ⟨rfl, rfl⟩⟩
  | addProgs loaded reserved =>
    obtain ⟨mem, fields, progs, shared, e, stack⟩ :=
      core.addProgs_eq F loaded.program builtins reserved
    simp only [host, e]
    exact ⟨rfl, rfl, rfl, rfl, .inl rfl, stack, .inr ⟨loaded, reserved, rfl⟩⟩
  | _ => exact ⟨rfl, rfl, rfl, rfl, .inl rfl, ⟨rfl, rfl⟩, .inl ⟨rfl, rfl⟩⟩

end Core

end Qcvm

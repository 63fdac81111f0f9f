import Qcvm.Interp.Placed
import Qcvm.Vm.Quiet

/-!
# Rules for actions

An action of a VM is a few elementary steps: a host operation, a run of the interpreter, a call that
begins or ends, and quiet bookkeeping between them. `Rules` lists what a property must survive, and
`Rules.act` says that then an action survives: what holds before it (`I`) leads to what holds after it
(`O`), with `J queue` for the moments when `run_threads` has threads in hand. An invariant takes the
same property for `I` and `O`.
-/

namespace Qcvm

open Lib

/-- The system with another core and other calls. -/
def Sys.put (s : Sys) (core : Core) (stack : List Pending) : Sys :=
  { s with vm := { s.vm with core := core }, stack := stack }

/-- Nothing happens but bookkeeping. -/
structure Sys.Calm (s t : Sys) : Prop where
  core : s.vm.core.Quiet t.vm.core
  stack : t.stack = s.stack
  main : t.vm.main = s.vm.main
  builtins : t.vm.builtins = s.vm.builtins
  budget : t.vm.budget = s.vm.budget
  deadline : t.vm.deadline = s.vm.deadline
  window : t.vm.window = s.vm.window

/-- What every state of a system has. -/
structure Sys.Base (s : Sys) : Prop where
  layout : s.vm.core.Layout
  nesting : s.vm.core.nesting = s.stack.length
  abortRet : s.vm.core.abortRet = none
  /-- A direct call of a builtin runs no QuakeC of its own. -/
  direct : ∀ p ∈ s.stack, ∀ n, p.restore = .prnum n → p.doing = .builtin
  /-- `run_threads` waits for nothing but the outermost call. -/
  outermost : ∀ p ∈ s.stack.dropLast, ∀ queue ran, p.origin ≠ .threads queue ran

/-- The core of a call of `argc` arguments. -/
def Core.nested (core : Core) (argc : Nat) : Core :=
  { core with argc := argc, nesting := core.nesting + 1 }

/-- What the end of a call makes of the core its code leaves. -/
def Pending.close (p : Pending) (core : Core) : Core :=
  let core := match p.restore with
    | .entry savedEntry => { core with entryDepth := savedEntry }
    | .prnum savedPrnum => { core with x := { core.x with prnum := savedPrnum } }
  let core := match p.origin with
    | .call argc builtin _ _ => { core with argc := argc, builtin := builtin }
    | .threads _ _ => core
  { core with nesting := core.nesting - 1, abortRet := none }

/-- A call's code has run: it returned, or it is unwound. -/
def Pending.Settled (p : Pending) (before after : Core) : Prop :=
  (after = before ∧ (before.frames.length ≤ p.exitDepth ∨ ∃ n, p.restore = .prnum n)) ∨
    after = before.unwind p.exitDepth

/-- What a property must survive for an action to survive it. -/
structure Rules (F : FloatOps) (a : Action) (I O : Sys → Prop) (J : List Thread → Sys → Prop) :
    Prop where
  weaken : ∀ {s}, I s → O s
  calm : ∀ {s t}, I s → s.Calm t → I t
  calmAfter : ∀ {s t}, O s → s.Calm t → O t
  calmQueue : ∀ {queue s t}, J queue s → s.Calm t → J queue t
  /-- The budgets of a host call start. -/
  fund : ∀ {s}, I s → s.stack = [] → I { s with vm := s.vm.startBudgets }
  fundQueue : ∀ {queue s}, J queue s → s.stack = [] →
    J queue { s with vm := s.vm.startBudgets }
  host : ∀ {s op}, a = .host op → I s → s.Base → s.hostRuns →
    O { s with vm := s.vm.host F op }
  reset : ∀ {s}, a = .reset → I s → s.Base → s.stack = [] → O { s with vm := s.vm.reset }
  /-- A call of a QuakeC function. -/
  enter : ∀ {s f args argc topLevel pr entered}, a = .call f args → I s → s.Base → s.hostRuns →
    (s.vm.core.nested argc).enter f.progs f.index s.vm.core.x.pc = (.ok (), entered) →
    O (s.put { entered with entryDepth := s.vm.core.frames.length }
      (⟨s.vm.core.frames.length, .interpreting, .entry s.vm.core.entryDepth,
        .call s.vm.core.argc s.vm.core.builtin topLevel pr⟩ :: s.stack))
  /-- A call of a builtin. -/
  direct : ∀ {s f args argc topLevel pr}, a = .call f args → I s → s.Base → s.hostRuns →
    O (s.put { s.vm.core.nested argc with
        x := { s.vm.core.x with prnum := f.progs }
        builtin := f }
      (⟨s.vm.core.frames.length, .builtin, .prnum s.vm.core.x.prnum,
        .call s.vm.core.argc s.vm.core.builtin topLevel pr⟩ :: s.stack))
  run : ∀ {s p rest sizes expires saved}, a = .run sizes expires → I s → s.Base →
    s.stack = p :: rest → p.doing = .interpreting → p.restore = .entry saved →
    I { s with vm := (Vm.runChunks F p.exitDepth expires sizes s.vm).2 }
  /-- QuakeC calls a builtin. -/
  builtin : ∀ {s p rest saved func}, I s → s.Base → s.stack = p :: rest → p.doing = .interpreting →
    p.restore = .entry saved →
    O (s.put { s.vm.core with builtin := func } ({ p with doing := .builtin } :: rest))
  /-- Control goes to the host, or back to the interpreter. -/
  doing : ∀ {s p rest saved doing}, I s → s.Base → s.stack = p :: rest → p.restore = .entry saved →
    O (s.put s.vm.core ({ p with doing := doing } :: rest))
  /-- A call ends. -/
  close : ∀ {s p rest core argc builtin topLevel pr}, I s → s.Base → s.stack = p :: rest →
    p.origin = .call argc builtin topLevel pr → p.Settled s.vm.core core →
    O (s.put (p.close core) rest)
  /-- A resumed thread ends. -/
  closeThread : ∀ {s p core queue ran}, I s → s.Base → s.stack = [p] →
    p.origin = .threads queue ran → p.Settled s.vm.core core → J queue (s.put (p.close core) [])
  /-- `run_threads` takes the threads that are due. -/
  wake : ∀ {s}, a = .runThreads → I s → s.Base → s.stack = [] →
    J (s.vm.core.takeDue F).1 (s.put (s.vm.core.takeDue F).2 [])
  /-- The next thread of the queue runs. -/
  resume : ∀ {s thread queue ran core}, J (thread :: queue) s → s.Base → s.stack = [] →
    { s.vm.core with nesting := s.vm.core.nesting + 1 }.resumeThread thread = (.ok (), core) →
    O (s.put { core with entryDepth := s.vm.core.frames.length }
      [⟨s.vm.core.frames.length, .interpreting, .entry core.entryDepth, .threads queue ran⟩])
  /-- A thread cannot be resumed. -/
  stale : ∀ {s thread queue kind core}, J (thread :: queue) s → s.Base → s.stack = [] →
    { s.vm.core with nesting := s.vm.core.nesting + 1 }.resumeThread thread = (.error kind, core) →
    J queue (s.put { core with nesting := core.nesting - 1 } [])
  /-- An error puts the threads in hand back to sleep. -/
  requeue : ∀ {s queue}, J queue s → s.Base → s.stack = [] →
    O (s.put { s.vm.core with threads := s.vm.core.threads ++ queue } [])
  /-- All threads have run. -/
  idle : ∀ {s}, J [] s → s.Base → s.stack = [] → O s

namespace Sys

variable {s t : Sys}

/-- A system that does nothing is calm. -/
lemma Calm.refl (s : Sys) : s.Calm s := ⟨.refl _, rfl, rfl, rfl, rfl, rfl, rfl⟩

/-- Calm changes in sequence are calm. -/
lemma Calm.trans {u : Sys} (a : s.Calm t) (b : t.Calm u) : s.Calm u :=
  ⟨a.core.trans b.core, b.stack.trans a.stack, b.main.trans a.main, b.builtins.trans a.builtins,
    b.budget.trans a.budget, b.deadline.trans a.deadline, b.window.trans a.window⟩

/-- A quiet change of the core is calm. -/
lemma Calm.put {core : Core} (q : s.vm.core.Quiet core) : s.Calm (s.put core s.stack) :=
  ⟨q, rfl, rfl, rfl, rfl, rfl, rfl⟩

/-- A quiet function of the core is calm. -/
lemma calm_mapCore (f : Core → Core) (q : s.vm.core.Quiet (f s.vm.core)) : s.Calm (s.mapCore f) :=
  ⟨q, rfl, rfl, rfl, rfl, rfl, rfl⟩

/-- An event is calm. -/
lemma calm_emit (e : Event) : s.Calm (s.emit e) := ⟨.refl _, rfl, rfl, rfl, rfl, rfl, rfl⟩

/-- Flushing the warnings is calm. -/
lemma calm_flush : s.Calm s.flush :=
  ⟨⟨⟨rfl, rfl, rfl, rfl⟩, rfl, rfl, id⟩, rfl, rfl, rfl, rfl, rfl, rfl⟩

/-- A collection is calm. -/
lemma calm_collect : s.Calm s.collect := by
  unfold collect
  split
  next => exact calm_mapCore _ (Core.quiet_collectGarbageNow _)
  next => exact .refl s

/-- The end of a top-level call is calm. -/
lemma calm_endTopLevel : s.Calm s.endTopLevel := by
  unfold endTopLevel
  dsimp only
  split
  next =>
    exact ((calm_mapCore _ ⟨⟨rfl, rfl, rfl, rfl⟩, rfl, rfl, id⟩).trans calm_flush).trans calm_collect
  next => exact calm_flush.trans calm_collect

/-- A calm change keeps what every state has. -/
lemma Base.calm (b : s.Base) (c : s.Calm t) : t.Base where
  layout := c.core.layout b.layout
  nesting := by
    rw [c.stack, ← b.nesting]
    exact congrArg Control.nesting c.core.control
  abortRet := c.core.abortRet b.abortRet
  direct := by
    rw [c.stack]
    exact b.direct
  outermost := by
    rw [c.stack]
    exact b.outermost

/-- Starting the budgets keeps what every state has. -/
lemma Base.fund (b : s.Base) : { s with vm := s.vm.startBudgets }.Base :=
  ⟨b.layout, b.nesting, b.abortRet, b.direct, b.outermost⟩

end Sys

/-! ## Runs -/

namespace Vm

variable {F : FloatOps} {exitDepth : Nat}

/-- A run of the interpreter is a move. -/
lemma moved_interpret (vm : Vm) (l : vm.core.mem.Regions) (chunk : Nat) :
    vm.core.Moved (vm.interpret F exitDepth chunk).core := by
  unfold interpret
  split
  next => exact moved_run l chunk
  next =>
    have cleared : vm.core.Moved { vm.core with traced := false } := .of_eq rfl rfl
    dsimp only
    split
    next => exact cleared.trans (moved_run (cleared.regions l) chunk)
    next => exact cleared.trans (moved_run (cleared.regions l) chunk)

/-- What a run does to a VM: it moves the core and takes from the budget. -/
structure Ran (exitDepth : Nat) (vm : Vm) (r : Verdict × Vm) : Prop where
  core : vm.core.Moved r.2.core
  main : r.2.main = vm.main
  builtins : r.2.builtins = vm.builtins
  deadline : r.2.deadline = vm.deadline
  window : r.2.window = vm.window
  budget : r.2.budget ≤ vm.budget
  returned : r.1 = .exit .returned → r.2.core.frames.length ≤ exitDepth

/-- A run that returns has come down to its exit depth. -/
lemma frames_of_interpret {vm : Vm} {chunk : Nat}
    (returned : (vm.interpret F exitDepth chunk).exit = .returned) :
    (vm.interpret F exitDepth chunk).core.frames.length ≤ exitDepth := by
  unfold interpret at returned ⊢
  dsimp only at returned ⊢
  split at returned
  next trace =>
    rw [if_pos trace]
    exact frames_of_returned returned
  next trace =>
    rw [if_neg trace]
    split at returned
    next window =>
      rw [if_pos window]
      exact frames_of_returned returned
    next window =>
      rw [if_neg window]
      exact frames_of_returned returned

/-- A chunk of the budget moves the core and takes from the budget. -/
lemma ran_runChunk (vm : Vm) (l : vm.core.mem.Regions) (chunk : Nat) :
    Ran exitDepth vm (vm.runChunk F exitDepth chunk) := by
  have moved : vm.core.Moved (vm.interpret F exitDepth chunk).core := vm.moved_interpret l chunk
  unfold runChunk
  dsimp only
  split
  next =>
    split
    next => exact ⟨moved, rfl, rfl, rfl, rfl, Nat.zero_le _, nofun⟩
    next => exact ⟨moved, rfl, rfl, rfl, rfl, Nat.sub_le _ _, nofun⟩
  next e _ =>
    refine ⟨moved, rfl, rfl, rfl, rfl, Nat.sub_le _ _, fun returned => ?_⟩
    exact frames_of_interpret (Verdict.exit.inj returned)

/-- A sequence of chunks moves the core and takes from the budget. -/
lemma ran_runChunks (expires : Bool) (sizes : List Nat) (vm : Vm) (l : vm.core.mem.Regions) :
    Ran exitDepth vm (runChunks F exitDepth expires sizes vm) := by
  induction sizes generalizing vm with
  | nil => exact vm.ran_runChunk l vm.budget
  | cons size sizes ih =>
    have first : Ran exitDepth vm (vm.runChunk F exitDepth (min vm.budget size)) :=
      vm.ran_runChunk l _
    unfold runChunks
    split
    next next e =>
      rw [e] at first
      split
      next => exact { first with returned := nofun }
      next =>
        have rest := ih next (first.core.regions l)
        exact ⟨first.core.trans rest.core, rest.main.trans first.main,
          rest.builtins.trans first.builtins, rest.deadline.trans first.deadline,
          rest.window.trans first.window, Nat.le_trans rest.budget first.budget, rest.returned⟩
    next => exact first

end Vm

/-! ## What keeps the base -/

namespace Core

/-- What resuming a thread does to the parts of a core it does not restore. -/
lemma fixed_enterChain (chain : List Activation) (resumePc : Nat) (core : Core) :
    (enterChain chain resumePc core).2.fixed = core.fixed := by
  induction chain generalizing resumePc core with
  | nil => rfl
  | cons a chain ih =>
    have first := (moved_enter core a.prnum a.func resumePc).fixed
    simp only [enterChain]
    split
    next kind entered e =>
      rw [e] at first
      exact first
    next entered e =>
      rw [e] at first
      exact (ih _ _).trans first

/-- Resuming a thread keeps what the interpreter leaves alone. -/
lemma fixed_resumeThread (core : Core) (thread : Thread) :
    (core.resumeThread thread).2.fixed = core.fixed := by
  have chain := fixed_enterChain thread.chain core.x.pc core
  unfold resumeThread
  dsimp only
  split
  next kind entered e =>
    rw [e] at chain
    exact (moved_unwind _ _).fixed.trans chain
  next entered e =>
    rw [e] at chain
    exact chain

end Core

/-- A call whose code has run has moved the core. -/
lemma Pending.Settled.moved {p : Pending} {core core' : Core} (h : p.Settled core core') :
    core.Moved core' := by
  rcases h with ⟨rfl, -⟩ | rfl
  · exact .refl _
  · exact core.moved_unwind _

/-- The end of a call keeps the memory and the fields. -/
lemma Pending.shape_close (p : Pending) (core : Core) :
    (p.close core).mem = core.mem ∧ (p.close core).fields = core.fields := by
  obtain ⟨-, -, restore, origin⟩ := p
  cases restore <;> cases origin <;> exact ⟨rfl, rfl⟩

/-- The end of a call takes one from the nesting, and drops the abort value. -/
lemma Pending.nesting_close (p : Pending) (core : Core) :
    (p.close core).nesting = core.nesting - 1 ∧ (p.close core).abortRet = none := by
  obtain ⟨-, -, restore, origin⟩ := p
  cases restore <;> cases origin <;> exact ⟨rfl, rfl⟩

namespace Sys

variable {s t : Sys} {p : Pending} {rest : List Pending}

/-- The end of a call keeps what every state has. -/
lemma Base.close (b : s.Base) (e : s.stack = p :: rest) {core : Core}
    (settled : p.Settled s.vm.core core) : (s.put (p.close core) rest).Base where
  layout := by
    obtain ⟨mem, fields⟩ := p.shape_close core
    exact (settled.moved.plain.layout b.layout).of_shape (by rw [← mem]; rfl) fields
  nesting := by
    have kept : core.nesting = s.vm.core.nesting := congrArg Core.Fixed.nesting settled.moved.fixed
    have nesting := b.nesting
    rw [e, List.length_cons] at nesting
    show (p.close core).nesting = rest.length
    rw [(p.nesting_close core).1]
    omega
  abortRet := (p.nesting_close core).2
  direct := fun q mem => b.direct q (e ▸ List.mem_cons_of_mem p mem)
  outermost := by
    intro q mem
    refine b.outermost q ?_
    rw [e]
    cases rest with
    | nil => cases mem
    | cons r rest => exact List.mem_cons_of_mem p mem

/-- A call that begins with a core like the one before. -/
lemma Base.push (b : s.Base) (core : Core) (shape : core.mem.shape = s.vm.core.mem.shape)
    (fields : core.fields = s.vm.core.fields) (nesting : core.nesting = s.vm.core.nesting + 1)
    (abortRet : core.abortRet = none) (direct : ∀ n, p.restore = .prnum n → p.doing = .builtin)
    (origin : s.stack = [] ∨ ∀ queue ran, p.origin ≠ .threads queue ran) :
    (s.put core (p :: s.stack)).Base where
  layout := b.layout.of_shape shape fields
  nesting := by
    show core.nesting = s.stack.length + 1
    rw [nesting, b.nesting]
  abortRet := abortRet
  direct := by
    intro q mem
    rcases List.mem_cons.mp mem with rfl | mem
    · exact direct
    · exact b.direct q mem
  outermost := by
    intro q mem
    change q ∈ (p :: s.stack).dropLast at mem
    rcases origin with none | other
    · rw [none] at mem
      cases mem
    · cases e : s.stack with
      | nil =>
        rw [e] at mem
        cases mem
      | cons r rest =>
        rw [e, List.dropLast_cons_cons] at mem
        rcases List.mem_cons.mp mem with rfl | mem
        · exact other
        · exact b.outermost q (e ▸ mem)

/-- Another thing the innermost call does. -/
lemma Base.redo (b : s.Base) (e : s.stack = p :: rest) {saved : Nat} (entry : p.restore = .entry saved)
    (core : Core) (q : s.vm.core.mem = core.mem) (fields : core.fields = s.vm.core.fields)
    (nesting : core.nesting = s.vm.core.nesting) (abortRet : core.abortRet = none) (doing : Doing) :
    (s.put core ({ p with doing := doing } :: rest)).Base where
  layout := b.layout.of_shape (by rw [q]; rfl) fields
  nesting := by
    show core.nesting = rest.length + 1
    rw [nesting, b.nesting, e, List.length_cons]
  abortRet := abortRet
  direct := by
    intro r mem
    rcases List.mem_cons.mp mem with rfl | mem
    · exact fun n direct => by rw [show _ = Restore.entry saved from entry] at direct; cases direct
    · exact b.direct r (e ▸ List.mem_cons_of_mem p mem)
  outermost := by
    intro r mem
    cases rest with
    | nil => cases mem
    | cons first others =>
      change r ∈ ({ p with doing := doing } :: first :: others).dropLast at mem
      rw [List.dropLast_cons_cons] at mem
      rcases List.mem_cons.mp mem with rfl | mem
      · exact b.outermost p (by rw [e, List.dropLast_cons_cons]; exact List.mem_cons_self)
      · exact b.outermost r (by rw [e, List.dropLast_cons_cons]; exact List.mem_cons_of_mem p mem)

end Sys

/-- The core after an operation of the host. -/
lemma Vm.core_host (vm : Vm) (F : FloatOps) (op : HostOp) :
    (vm.host F op).core = vm.core.host F vm.builtins op := by
  cases op with
  | addProgs loaded reserved =>
    simp only [Vm.host, Core.host]
    split
    next e => rw [e]
    next e => rw [e]
  | _ => rfl

/-- A host operation keeps what every state has. -/
lemma Sys.Base.host {s : Sys} {F : FloatOps} {op : HostOp} (b : s.Base) :
    { s with vm := s.vm.host F op }.Base where
  layout := by
    rw [Vm.core_host]
    exact b.layout.host op
  nesting := by
    rw [Vm.core_host, ← b.nesting]
    exact congrArg Control.nesting (Core.hosted s.vm.core op).control
  abortRet := by
    rw [Vm.core_host]
    exact (Core.hosted s.vm.core op).abortRet.trans b.abortRet
  direct := b.direct
  outermost := b.outermost

/-- A new core with no calls. -/
lemma Sys.base_built {program : Program} {builtins : Builtins} {config : VmConfig} {s : Sys}
    (e : buildCore program builtins config = .ok s.vm.core) (idle : s.stack = []) : s.Base := by
  obtain ⟨sp, built⟩ := Core.built e
  refine ⟨Core.layout_buildCore e, ?_, built.abortRet, ?_, ?_⟩
  · rw [built.nesting, idle]
    rfl
  · rw [idle]
    exact fun _ mem => absurd mem List.not_mem_nil
  · rw [idle]
    exact fun _ mem => absurd mem List.not_mem_nil

/-- A reset between calls keeps what every state has. -/
lemma Sys.Base.reset {s : Sys} (b : s.Base) (idle : s.stack = []) :
    { s with vm := s.vm.reset }.Base := by
  unfold Vm.reset
  split
  next core e => exact Sys.base_built e idle
  next => exact b

/-- A call that ends as it began. -/
lemma Sys.calm_endCall {s : Sys} {core : Core} {argc : Nat} {builtin : FuncRef} (topLevel : Bool)
    (retPr : Nat) (r : Except VmError Unit)
    (q : s.vm.core.Quiet
      { core with nesting := core.nesting - 1, argc := argc, builtin := builtin, abortRet := none }) :
    s.Calm ((s.put core s.stack).endCall argc builtin topLevel retPr r) := by
  have ended : s.Calm ((s.put core s.stack).mapCore fun core =>
      { core with nesting := core.nesting - 1, argc := argc, builtin := builtin, abortRet := none }) :=
    Calm.put q
  unfold endCall
  dsimp only
  split
  next => exact (ended.trans calm_endTopLevel).trans (calm_emit _)
  next => exact ended.trans (calm_emit _)

/-- A call fails where there is nothing to unwind. -/
lemma Sys.failed_of_le {s : Sys} {p : Pending} (le : s.vm.core.frames.length ≤ p.exitDepth)
    (e : VmError) :
    s.failed p e = s.complete p (.error (e.withBacktrace s.vm.core.backtrace)) := by
  have still : s.vm.core.unwind p.exitDepth = s.vm.core := by
    rw [Core.unwind, Nat.sub_eq_zero_of_le le]
    rfl
  unfold failed Core.fail mapCore
  dsimp only
  rw [still]

/-! ## The walk -/

namespace Rules

variable {F : FloatOps} {a : Action} {I O : Sys → Prop} {J : List Thread → Sys → Prop}
variable (R : Rules F a I O J) {s : Sys} {p : Pending} {rest : List Pending}

include R

/-- `run_threads` goes on with the threads it holds. -/
lemma nextThread {queue : List Thread} (j : J queue s) (b : s.Base) (idle : s.stack = [])
    (ran : Nat) : (s.nextThread queue ran).Base ∧ O (s.nextThread queue ran) := by
  cases queue with
  | nil =>
    have calm : s.Calm (s.collect.emit (.ranThreads (.ok ran))) :=
      Sys.calm_collect.trans (Sys.calm_emit _)
    exact ⟨b.calm calm, R.calmAfter (R.idle j b idle) calm⟩
  | cons thread queue =>
    obtain ⟨vm, stack, events⟩ := s
    cases idle
    have funded := R.fundQueue j rfl
    have b' := b.fund
    let core := { vm.startBudgets.core with nesting := vm.startBudgets.core.nesting + 1 }
    have fixed := core.fixed_resumeThread thread
    have plain := core.plain_resumeThread thread
    have zero : vm.core.nesting = 0 := b.nesting
    unfold Sys.nextThread
    dsimp only
    split
    next kind failed e =>
      rw [e] at fixed plain
      have nesting : failed.nesting = vm.core.nesting + 1 := congrArg Core.Fixed.nesting fixed
      have abortRet : failed.abortRet = none :=
        (congrArg Core.Fixed.abortRet fixed).trans b.abortRet
      let t : Sys := ⟨{ vm.startBudgets with
        core := { failed with nesting := failed.nesting - 1 } }, [], events⟩
      have base : t.Base :=
        { layout := (plain.layout (b.layout.of_shape rfl rfl)).of_shape rfl rfl
          nesting := by
            show failed.nesting - 1 = 0
            omega
          abortRet := abortRet
          direct := fun _ mem => absurd mem List.not_mem_nil
          outermost := fun _ mem => absurd mem List.not_mem_nil }
      have flushed : t.Calm t.flush := Sys.calm_flush
      have stale : J queue t := R.stale funded b' rfl e
      have asleep := R.requeue (R.calmQueue stale flushed) (base.calm flushed) rfl
      refine ⟨?_, R.calmAfter asleep (Sys.calm_emit _)⟩
      exact ⟨base.layout.of_shape rfl rfl, base.nesting, base.abortRet, base.direct, base.outermost⟩
    next resumed e =>
      rw [e] at fixed plain
      refine ⟨?_, R.resume funded b' rfl e⟩
      exact b'.push _ plain.shape plain.fields
        (congrArg Core.Fixed.nesting fixed) ((congrArg Core.Fixed.abortRet fixed).trans b.abortRet)
        nofun (.inl rfl)

/-- A call's code has run. -/
lemma complete (i : I s) (b : s.Base) (e : s.stack = p :: rest) {core core' : Core}
    (settled : p.Settled s.vm.core core) (same : p.close core' = p.close core)
    (r : Except VmError Unit) :
    ((s.put core' rest).complete p r).Base ∧ O ((s.put core' rest).complete p r) := by
  have base := b.close e settled
  cases origin : p.origin with
  | call argc builtin topLevel retPr =>
    have after := R.close i b e origin settled
    rw [← same] at base after
    have closed : ((s.put core' rest).restore p.restore).mapCore (fun core =>
        { core with nesting := core.nesting - 1, argc := argc, builtin := builtin, abortRet := none })
        = s.put (p.close core') rest := by
      obtain ⟨_, _, restore, _⟩ := p
      cases origin
      cases restore <;> rfl
    unfold Sys.complete Sys.deliver Sys.endCall
    rw [origin]
    dsimp only
    rw [closed]
    split
    next =>
      have calm := Sys.calm_endTopLevel.trans (Sys.calm_emit (s := (s.put (p.close core') rest).endTopLevel)
        (.returned (r.map fun _ => ((s.put core' rest).restore p.restore).vm.core.abortRet.getD
          (((s.put core' rest).restore p.restore).vm.core.readReturn retPr))))
      exact ⟨base.calm calm, R.calmAfter after calm⟩
    next =>
      exact ⟨base.calm (Sys.calm_emit _), R.calmAfter after (Sys.calm_emit _)⟩
  | threads queue ran =>
    have last : rest = [] := by
      by_contra some
      refine b.outermost p ?_ queue ran origin
      rw [e, List.dropLast_cons_of_ne_nil some]
      exact List.mem_cons_self
    subst last
    have after := R.closeThread i b e origin settled
    rw [← same] at base after
    have closed : ((s.put core' []).restore p.restore).mapCore (fun core =>
        { core with abortRet := none, nesting := core.nesting - 1 }) = s.put (p.close core') [] := by
      obtain ⟨_, _, restore, _⟩ := p
      cases origin
      cases restore <;> rfl
    have flushed : (s.put (p.close core') []).Calm (s.put (p.close core') []).flush := Sys.calm_flush
    have queued := R.calmQueue after flushed
    have base := base.calm flushed
    unfold Sys.complete Sys.deliver Sys.endThread
    rw [origin]
    dsimp only
    rw [closed]
    split
    next => exact R.nextThread queued base rfl _
    next =>
      refine ⟨?_, R.calmAfter (R.requeue queued base rfl) (Sys.calm_emit _)⟩
      exact ⟨base.layout.of_shape rfl rfl, base.nesting, base.abortRet, base.direct, base.outermost⟩

/-- A call fails and is unwound. -/
lemma failed (i : I s) (b : s.Base) (e : s.stack = p :: rest) (error : VmError) :
    ({ s with stack := rest }.failed p error).Base ∧ O ({ s with stack := rest }.failed p error) :=
  R.complete i b e (.inr rfl) rfl _

/-- QuakeC calls a builtin. -/
lemma enterBuiltin (i : I s) (b : s.Base) (e : s.stack = p :: rest) (doing : p.doing = .interpreting)
    {saved : Nat} (entry : p.restore = .entry saved) (slot : Nat) (func : FuncRef) :
    ({ s with stack := rest }.enterBuiltin p slot func).Base ∧
      O ({ s with stack := rest }.enterBuiltin p slot func) := by
  unfold Sys.enterBuiltin
  dsimp only
  split
  next =>
    have base := b.redo e entry { s.vm.core with builtin := func } rfl rfl rfl b.abortRet .builtin
    have after : O (s.put { s.vm.core with builtin := func } ({ p with doing := .builtin } :: rest)) :=
      R.builtin i b e doing entry
    exact ⟨base, after⟩
  next => exact R.failed i b e _

/-- A builtin returns to its caller. -/
lemma flowContinue (i : I s) (b : s.Base) (e : s.stack = p :: rest) :
    ({ s with stack := rest }.flowContinue p).Base ∧ O ({ s with stack := rest }.flowContinue p) := by
  unfold Sys.flowContinue
  split
  next saved entry => exact ⟨b.redo e entry s.vm.core rfl rfl rfl b.abortRet _, R.doing i b e entry⟩
  next saved direct => exact R.complete i b e (.inl ⟨rfl, .inr ⟨saved, direct⟩⟩) rfl _

/-- The end of a builtin. -/
lemma leaveBuiltin (i : I s) (b : s.Base) (e : s.stack = p :: rest) (r : Except VmError Unit) :
    ({ s with stack := rest }.leaveBuiltin p r).Base ∧
      O ({ s with stack := rest }.leaveBuiltin p r) := by
  unfold Sys.leaveBuiltin
  split
  next => exact R.flowContinue i b e
  next error =>
    split
    next ret _ =>
      refine R.complete i b e (.inr rfl) ?_ _
      show p.close ({ s.vm.core with abortRet := some ret }.unwind p.exitDepth) = _
      rw [Core.unwind_withAbort s.vm.core (some ret)]
      obtain ⟨_, _, restore, origin⟩ := p
      cases restore <;> cases origin <;> rfl
    next msg _ _ =>
      split
      next =>
        have warned : s.Calm (s.mapCore fun core => (core.warn (.builtin msg)).retRaw [0, 0, 0]) :=
          Sys.calm_mapCore _ ((Core.quiet_warn _ _).trans (Core.quiet_retRaw _ _))
        have calm := warned.trans Sys.calm_flush
        exact R.flowContinue (R.calm i calm) (b.calm calm) e
      next => exact R.failed i b e _
    next => exact R.failed i b e _

/-- The interpreter stopped. -/
lemma onVerdict (i : I s) (b : s.Base) (e : s.stack = p :: rest) (doing : p.doing = .interpreting)
    {saved : Nat} (entry : p.restore = .entry saved) (v : Verdict)
    (returned : v = .exit .returned → s.vm.core.frames.length ≤ p.exitDepth) :
    ({ s with stack := rest }.onVerdict p v).Base ∧ O ({ s with stack := rest }.onVerdict p v) := by
  have flushed : s.Calm s.flush := Sys.calm_flush
  have i' := R.calm i flushed
  have b' := b.calm flushed
  have redo (doing : Doing) : (s.put s.vm.core ({ p with doing := doing } :: rest)).Base ∧
      O (s.put s.vm.core ({ p with doing := doing } :: rest)) :=
    ⟨b.redo e entry s.vm.core rfl rfl rfl b.abortRet doing, R.doing i b e entry⟩
  unfold Sys.onVerdict
  split
  next => exact R.failed i' b' e _
  next => exact R.failed i' b' e _
  next => exact R.complete i' b' e (.inl ⟨rfl, .inl (returned rfl)⟩) rfl _
  next slot func => exact R.enterBuiltin i' b' e doing entry slot func
  next op => exact redo (.stateOp op)
  next => exact R.failed i' b' e _
  next =>
    obtain ⟨base, after⟩ := redo p.doing
    have calm : (s.put s.vm.core (p :: rest)).Calm ((s.put s.vm.core (p :: rest)).emit
        (.trace s.vm.core.x.prnum s.vm.core.x.func s.vm.core.x.pc)) := Sys.calm_emit _
    exact ⟨base.calm calm, R.calmAfter after calm⟩
  next => exact redo p.doing
  next => exact redo p.doing

/-- What `call_inner` does once the arguments are written. -/
lemma dispatch {f : FuncRef} {args : List Arg} (here : a = .call f args) (i : I s) (b : s.Base)
    (host : s.hostRuns) (argc : Nat) (callee : Option Callee) (topLevel : Bool) (pr : Nat) :
    ((s.put (s.vm.core.nested argc) s.stack).dispatch f callee
        (.call s.vm.core.argc s.vm.core.builtin topLevel pr)).Base ∧
      O ((s.put (s.vm.core.nested argc) s.stack).dispatch f callee
        (.call s.vm.core.argc s.vm.core.builtin topLevel pr)) := by
  have ended (m : Memory) (only : s.vm.core.mem.OnlyS m) (r : Except VmError Unit) :
      s.Calm ((s.put { s.vm.core.nested argc with mem := m } s.stack).endCall s.vm.core.argc
        s.vm.core.builtin topLevel pr r) :=
    Sys.calm_endCall _ _ _ ⟨⟨only.kept.shape, rfl, rfl, rfl⟩, rfl, rfl, fun _ => rfl⟩
  have same (r : Except VmError Unit) := ended s.vm.core.mem (.refl _) r
  have calmed {t : Sys} (c : s.Calm t) : t.Base ∧ O t := ⟨b.calm c, R.calmAfter (R.weaken i) c⟩
  unfold Sys.dispatch
  dsimp only
  split
  next =>
    split
    next entered e =>
      have moved := Core.moved_enter (s.vm.core.nested argc) f.progs f.index s.vm.core.x.pc
      rw [show (s.vm.core.nested argc).enter f.progs f.index s.vm.core.x.pc = (.ok (), entered) from e]
        at moved
      refine ⟨?_, R.enter here i b host e⟩
      exact b.push _ moved.mem.shape moved.plain.fields (congrArg Core.Fixed.nesting moved.fixed)
        ((congrArg Core.Fixed.abortRet moved.fixed).trans b.abortRet) nofun (.inr nofun)
    next kind entered e =>
      obtain ⟨m, rfl, only⟩ := Core.enter_error e
      exact calmed (ended m only _)
  next slot =>
    unfold Sys.enterBuiltin
    dsimp only
    split
    next => exact ⟨b.push _ rfl rfl rfl b.abortRet (fun _ _ => rfl) (.inr nofun), R.direct here i b host⟩
    next =>
      rw [Sys.failed_of_le (Nat.le_refl s.vm.core.frames.length)]
      exact calmed (same _)
  next => exact calmed (same _)
  next => exact calmed (same _)
  next => exact calmed (same _)
  next => exact calmed (same _)

/-- `call_inner`. -/
lemma call {f : FuncRef} {args : List Arg} (here : a = .call f args) (i : I s) (b : s.Base)
    (host : s.hostRuns) : (s.call f args).Base ∧ O (s.call f args) := by
  have calmed {t u : Sys} (i : I t) (b : t.Base) (c : t.Calm u) : u.Base ∧ O u :=
    ⟨b.calm c, R.calmAfter (R.weaken i) c⟩
  unfold Sys.call
  dsimp only
  split
  next => exact calmed i b (Sys.calm_emit _)
  next =>
    -- The budgets start with a top-level call, of which none is pending.
    obtain ⟨vm, funded, i, b, control⟩ : ∃ vm, vm = (if s.vm.core.nesting == 0 then
        { s.vm with core := { s.vm.core with warningsThisCall := 0, suppressed := 0 } }.startBudgets
        else s.vm) ∧ I { s with vm := vm } ∧ { s with vm := vm }.Base ∧
        vm.core.control = s.vm.core.control := by
      refine ⟨_, rfl, ?_⟩
      split
      next top =>
        have idle : s.stack = [] := by
          have zero := b.nesting
          rw [eq_of_beq top] at zero
          exact List.length_eq_zero_iff.mp zero.symm
        have calm : s.Calm (s.put { s.vm.core with warningsThisCall := 0, suppressed := 0 } s.stack) :=
          Sys.Calm.put ⟨⟨rfl, rfl, rfl, rfl⟩, rfl, rfl, id⟩
        exact ⟨R.fund (R.calm i calm) idle, (b.calm calm).fund, rfl⟩
      next => exact ⟨i, b, rfl⟩
    rw [← funded]
    generalize (if s.vm.core.callee f = some .qc then s.vm.core.x.prnum else f.progs) = pr
    have quiet := vm.core.quiet_writeArgs pr args
    split
    next kind written e =>
      rw [e] at quiet
      exact calmed i b ((Sys.Calm.put quiet).trans (Sys.calm_emit _))
    next written e =>
      rw [e] at quiet
      have calm : Sys.Calm { s with vm := vm } (Sys.put { s with vm := vm } written s.stack) :=
        Sys.Calm.put quiet
      have control := quiet.control.trans control
      have after := R.dispatch here (R.calm i calm) (b.calm calm) host args.length
        (s.vm.core.callee f) (s.vm.core.nesting == 0) pr
      rw [show (Sys.put { s with vm := vm } written s.stack).vm.core.argc = s.vm.core.argc from
          congrArg Control.argc control,
        show (Sys.put { s with vm := vm } written s.stack).vm.core.builtin = s.vm.core.builtin from
          congrArg Control.builtin control] at after
      exact after

/-- `run_threads_inner`. -/
lemma runThreads (here : a = .runThreads) (i : I s) (b : s.Base) :
    (s.runThreads F).Base ∧ O (s.runThreads F) := by
  unfold Sys.runThreads
  split
  next => exact ⟨b.calm (Sys.calm_emit _), R.calmAfter (R.weaken i) (Sys.calm_emit _)⟩
  next outermost =>
    have idle : s.stack = [] := by
      have zero := b.nesting
      exact List.length_eq_zero_iff.mp (by omega)
    obtain ⟨vm, stack, events⟩ := s
    cases idle
    have base : Sys.Base ⟨{ vm with core := (vm.core.takeDue F).2 }, [], events⟩ :=
      ⟨b.layout.of_shape rfl rfl, b.nesting, b.abortRet, b.direct, b.outermost⟩
    exact R.nextThread (R.wake here i b rfl) base rfl 0

/-- An action leads from what holds before it to what holds after it. -/
theorem act {t : Sys} (i : I s) (b : s.Base) (e : s.actIdleReset F a = some t) : t.Base ∧ O t := by
  have entered {p : Pending} {rest : List Pending} (here : s.stack = p :: rest)
      (doing : p.doing ≠ .builtin) : ∃ saved, p.restore = .entry saved := by
    cases restore : p.restore with
    | entry saved => exact ⟨saved, rfl⟩
    | prnum n => exact absurd (b.direct p (here ▸ List.mem_cons_self) n restore) doing
  rw [Sys.actIdleReset_eq_some] at e
  obtain ⟨e, apart⟩ := e
  unfold Sys.act at e
  split at e
  next op _ =>
    split at e
    next host =>
      cases e
      exact ⟨b.host, R.host rfl i b host⟩
    next => cases e
  next f args _ =>
    split at e
    next host =>
      cases e
      exact R.call rfl i b host
    next => cases e
  next =>
    split at e
    next =>
      cases e
      exact R.runThreads rfl i b
    next => cases e
  next =>
    split at e
    next =>
      cases e
      have idle := apart rfl
      exact ⟨b.reset idle, R.reset rfl i b idle⟩
    next => cases e
  next sizes expires p rest here =>
    split at e
    next => cases e
    -- Only a call whose code runs is interpreted, and such a call was entered.
    next started =>
      cases e
      have doing : p.doing = .interpreting := by
        by_contra other
        exact started (.inl other)
      obtain ⟨saved, entry⟩ := entered here (by rw [doing]; nofun)
      have ran : Vm.Ran p.exitDepth s.vm (Vm.runChunks F p.exitDepth expires sizes s.vm) :=
        Vm.ran_runChunks expires sizes s.vm b.layout.mem.toRegions
      have base : Sys.Base { s with vm := (Vm.runChunks F p.exitDepth expires sizes s.vm).2 } :=
        { layout := ran.core.plain.layout b.layout
          nesting := (congrArg Core.Fixed.nesting ran.core.fixed).trans b.nesting
          abortRet := (congrArg Core.Fixed.abortRet ran.core.fixed).trans b.abortRet
          direct := b.direct
          outermost := b.outermost }
      exact R.onVerdict (R.run rfl i b here doing entry) base here doing entry _ ran.returned
  next r p rest here =>
    split at e
    next =>
      cases e
      exact R.leaveBuiltin i b here r
    next => cases e
  next r p rest here =>
    split at e
    next op doing =>
      obtain ⟨saved, entry⟩ := entered here (by rw [doing]; nofun)
      dsimp only at e
      split at e
      next =>
        cases e
        exact R.failed i b here _
      -- The host may have handled the state operation, or leave it to the VM.
      next handled =>
        cases e
        split
        next =>
          exact ⟨b.redo here entry s.vm.core rfl rfl rfl b.abortRet _, R.doing i b here entry⟩
        next =>
          have calm : s.Calm (s.mapCore fun core => core.defaultStateOp F op) :=
            Sys.calm_mapCore _ (Core.quiet_defaultStateOp _ _ _)
          have b' := b.calm calm
          exact ⟨b'.redo here entry _ rfl rfl rfl b'.abortRet _, R.doing (R.calm i calm) b' here entry⟩
    next => cases e
  next => cases e

end Rules

/-! ## Reachable systems -/

/-- A system that starts with a new VM and makes any decisions of the host and of builtins, but for one:
no builtin resets the VM in the middle of a call (`Sys.resetsInside`). The host resets it between its
calls. -/
def Sys.Reachable (F : FloatOps) (s : Sys) : Prop :=
  ∃ main builtins config vm as,
    Vm.new main builtins config = .ok vm ∧ vm.start.actsIdleReset F as = some s

/-- What every action keeps, a sequence of actions keeps. -/
lemma Sys.acts_induction {F : FloatOps} {I : Sys → Prop}
    (step : ∀ s a t, I s → s.actIdleReset F a = some t → I t) (as : List Action) {s t : Sys} (i : I s)
    (e : s.actsIdleReset F as = some t) : I t := by
  induction as generalizing s with
  | nil =>
    cases e
    exact i
  | cons a as ih =>
    obtain ⟨mid, first, rest⟩ := Option.bind_eq_some_iff.mp e
    exact ih (step s a mid i first) rest

/-- An invariant that a new VM has holds of every reachable system. -/
theorem Rules.reachable {F : FloatOps} {I : Sys → Prop} {J : List Thread → Sys → Prop}
    (R : ∀ a, Rules F a I I J) (new : ∀ main builtins config vm, Vm.new main builtins config = .ok vm →
      I vm.start) {s : Sys} (r : s.Reachable F) : s.Base ∧ I s := by
  obtain ⟨main, builtins, config, vm, as, start, e⟩ := r
  refine Sys.acts_induction (fun s a t h step => (R a).act h.2 h.1 step) as ⟨?_, ?_⟩ e
  · unfold Vm.new at start
    cases built : buildCore main.program builtins config with
    | error kind =>
      rw [built] at start
      cases start
    | ok core =>
      rw [built] at start
      cases start
      exact Sys.base_built built rfl
  · exact new main builtins config vm start

/-- The end of a call is plain. -/
lemma Pending.plain_close (p : Pending) (core : Core) : core.Plain (p.close core) := by
  obtain ⟨-, -, restore, origin⟩ := p
  cases restore <;> cases origin <;> exact ⟨rfl, rfl, rfl, rfl⟩

/-- A property of the layout, the progs, the fields and the configuration that host operations keep;
nothing but a reset can change it. -/
structure PlainKept (F : FloatOps) (P : Core → Prop) : Prop where
  plain : ∀ {core core'}, P core → core.Plain core' → P core'
  host : ∀ {core builtins} op, P core → core.Layout → P (core.host F builtins op)

/-- Such a property that a new core has. -/
structure PlainInvariant (F : FloatOps) (P : Core → Prop) : Prop extends PlainKept F P where
  built : ∀ {main : Loaded} {builtins config core},
    buildCore main.program builtins config = .ok core → P core

section Plain

variable {F : FloatOps} {P : Core → Prop}

/-- A property that is kept and, at a reset, holds of a new core survives every action. -/
lemma PlainKept.rules (Q : PlainKept F P) (a : Action)
    (built : a = .reset → ∀ {main : Loaded} {builtins config core},
      buildCore main.program builtins config = .ok core → P core) :
    Rules F a (fun s => P s.vm.core) (fun s => P s.vm.core) fun _ s => P s.vm.core where
  weaken i := i
  calm i c := Q.plain i c.core.toPlain
  calmAfter i c := Q.plain i c.core.toPlain
  calmQueue i c := Q.plain i c.core.toPlain
  fund i _ := i
  fundQueue i _ := i
  host {s op} _ i b _ := by
    rw [Vm.core_host]
    exact Q.host op i b.layout
  reset {s} here i _ _ := by
    unfold Vm.reset
    split
    next core e => exact built here e
    next => exact i
  enter {s f args argc topLevel pr entered} _ i _ _ e := by
    have moved := Core.moved_enter (s.vm.core.nested argc) f.progs f.index s.vm.core.x.pc
    rw [e] at moved
    exact Q.plain i ⟨moved.plain.shape, moved.plain.progs, moved.plain.fields, moved.plain.config⟩
  direct _ i _ _ := Q.plain i ⟨rfl, rfl, rfl, rfl⟩
  run {s p rest sizes expires saved} _ i b _ _ _ := by
    have ran : Vm.Ran p.exitDepth s.vm (Vm.runChunks F p.exitDepth expires sizes s.vm) :=
      Vm.ran_runChunks expires sizes s.vm b.layout.mem.toRegions
    exact Q.plain i ran.core.plain
  builtin i _ _ _ _ := Q.plain i ⟨rfl, rfl, rfl, rfl⟩
  doing i _ _ _ := i
  close {s p rest core argc builtin topLevel pr} i _ _ _ settled :=
    Q.plain i (settled.moved.plain.trans (p.plain_close core))
  closeThread {s p core queue ran} i _ _ _ settled :=
    Q.plain i (settled.moved.plain.trans (p.plain_close core))
  wake _ i _ _ := Q.plain i ⟨rfl, rfl, rfl, rfl⟩
  resume {s thread queue ran core} i _ _ e := by
    have plain := Core.plain_resumeThread { s.vm.core with nesting := s.vm.core.nesting + 1 } thread
    rw [e] at plain
    exact Q.plain i ⟨plain.shape, plain.progs, plain.fields, plain.config⟩
  stale {s thread queue kind core} i _ _ e := by
    have plain := Core.plain_resumeThread { s.vm.core with nesting := s.vm.core.nesting + 1 } thread
    rw [e] at plain
    exact Q.plain i ⟨plain.shape, plain.progs, plain.fields, plain.config⟩
  requeue i _ _ := Q.plain i ⟨rfl, rfl, rfl, rfl⟩
  idle i _ _ := i

/-- A property that is kept and holds of a new core survives every action. -/
lemma PlainInvariant.rules (Q : PlainInvariant F P) (a : Action) :
    Rules F a (fun s => P s.vm.core) (fun s => P s.vm.core) fun _ s => P s.vm.core :=
  Q.toPlainKept.rules a fun _ => Q.built

/-- Such a property holds of every reachable core. -/
theorem PlainInvariant.reachable (Q : PlainInvariant F P) {s : Sys} (r : s.Reachable F) :
    P s.vm.core := by
  refine (Rules.reachable (fun a => Q.rules a) (fun main builtins config vm start => ?_) r).2
  unfold Vm.new at start
  cases built : buildCore main.program builtins config with
  | error kind =>
    rw [built] at start
    cases start
  | ok core =>
    rw [built] at start
    cases start
    exact Q.built built

end Plain

/-- What holds of every state. -/
lemma plainInvariant_trivial (F : FloatOps) : PlainInvariant F fun _ => True :=
  ⟨⟨fun _ _ => trivial, fun _ _ _ => trivial⟩, fun _ => trivial⟩

/-- Every reachable system has a layout, and counts its calls. -/
lemma Sys.Reachable.base {F : FloatOps} {s : Sys} (r : s.Reachable F) : s.Base :=
  (Rules.reachable (plainInvariant_trivial F).rules (fun _ _ _ _ _ => trivial) r).1

/-- Every action keeps what every state has. -/
lemma Sys.Base.act {F : FloatOps} {a : Action} {s t : Sys} (b : s.Base) (e : s.actIdleReset F a = some t) :
    t.Base :=
  (((plainInvariant_trivial F).rules a).act trivial b e).1

end Qcvm

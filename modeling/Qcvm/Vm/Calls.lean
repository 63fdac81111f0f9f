import Qcvm.Interp.Run
import Qcvm.Vm.Host

/-!
# Host calls

`Vm::call`, `Vm::run_threads` and the loop around the interpreter (`vm/mod.rs`, `vm/threads.rs`).
Rust runs them on the native stack, where a builtin may call the VM again; here every call that has
not returned is a `Pending` on a stack of the system's own, and one `Action` takes the system from
one point where the host, a builtin or the interpreter decides what comes next to another. What
builtins and the host do is any sequence of actions.
-/

namespace Qcvm

open Lib

/-- An argument of a host call. -/
inductive Arg where
  | float (bits : Word)
  | vector (x y z : Word)
  | int (v : Word)
  | ent (e : Word)
  | str (r : Word)
  | bytes (text : List Byte)
  | func (f : FuncRef)
  | raw (w0 w1 w2 : Word)

/-- `Vm`. `deadline` says whether the current host call has one. -/
structure Vm where
  core : Core
  main : Loaded
  builtins : Builtins
  /-- Instruction budget left for the current host call, shared by nested calls. -/
  budget : Nat
  deadline : Bool
  /-- Every operand lies in the interpreter's window. -/
  window : Bool

/-- What an iteration of the loop in `execute_inner` comes to. -/
inductive Verdict where
  | exit (e : Exit)
  | runaway
  | deadline
  /-- The chunk is spent, but not the budget. -/
  | more
  deriving DecidableEq

namespace Core

variable (core : Core)

/-- The words of an argument, and the core that holds its text. -/
def argWords : Arg → Except ErrorKind (List Word) × Core
  | .float v | .int v | .ent v | .str v => (.ok [v, 0, 0], core)
  | .func f => (.ok [f.bits, 0, 0], core)
  | .vector x y z | .raw x y z => (.ok [x, y, z], core)
  | .bytes text =>
    match core.strings.alloc text with
    | (.ok r, strings) => (.ok [r, 0, 0], { core with strings := strings })
    | (.error resource, strings) =>
      (.error (.outOfMemory resource), { core with strings := strings })

/-- Writes arguments to the PARM slots from `off` on. -/
def writeArgsFrom : Nat → List Arg → Core → Except ErrorKind Unit × Core
  | _, [], core => (.ok (), core)
  | off, arg :: args, core =>
    match core.argWords arg with
    | (.error kind, core) => (.error kind, core)
    | (.ok words, core) =>
      writeArgsFrom (off + 12) args { core with mem := core.mem.setGs off words }

/-- The globals base of progs `pr`, 0 if there is none. -/
def gbaseOf (pr : Nat) : Nat := ((core.progs[pr]?).map (·.gbase)).getD 0

/-- `write_args`. -/
def writeArgs (pr : Nat) (args : List Arg) : Except ErrorKind Unit × Core :=
  if args.length > 8 then (.error (.tooManyArguments args.length), core)
  else writeArgsFrom (core.gbaseOf pr + ofsParm0) args core

/-- `read_return`. -/
def readReturn (pr : Nat) : Word × Word × Word :=
  let off := core.gbaseOf pr + ofsReturn
  (core.mem.g off, core.mem.g (off + 4), core.mem.g (off + 8))

/-- `ret_raw`. -/
def retRaw (words : List Word) : Core :=
  { core with mem := core.mem.setGs (core.gbase + ofsReturn) words }

/-- `missing`: the error for calling a builtin that is not bound. -/
def missing (f : FuncRef) : ErrorKind :=
  let info := do
    let ps ← core.progs[f.progs]?
    let info ← ps.program.functions[f.index]?
    return (ps, info)
  match info with
  | some (ps, info) =>
    .builtinNotImplemented (match info.kind with | .builtin number => number | _ => 0)
      (ps.program.stringAt info.name)
  | none => .invalidFunction f

/-- `fail`: adds a backtrace to an error and unwinds to `depth`. -/
def fail (e : VmError) (depth : Nat) : VmError × Core :=
  (e.withBacktrace core.backtrace, core.unwind depth)

/-- Writes a field of an entity, if both are there. -/
def setStateField (e : Word) (field : Option Nat) (v : Word) : Core :=
  match field.bind fun f => core.mem.fieldOffset e.toNat f 1 with
  | some off => { core with mem := core.mem.setEntWord off v }
  | none => core

/-- Sets the global at a byte offset, if there is one. -/
def setStateGlobal (off : Option Nat) (v : Word) : Core :=
  match off with
  | some off => { core with mem := core.mem.setG off v }
  | none => core

/-- The frame after `cur` in the cycle from `first` to `last`, and whether it wrapped. -/
def nextFrame (F : FloatOps) (first last cur : Word) : Word × Bool :=
  let down := F.gt first last
  let (lo, hi, step) := if down then (last, first, 0xBF800000) else (first, last, 0x3F800000)
  if F.lt cur lo || F.gt cur hi then (first, false)
  else
    let n := F.add cur step
    if F.lt n lo || F.gt n hi then (first, true) else (n, false)

/-- The part `CSTATE` and `CWSTATE` share: `frameF` is the field they cycle. -/
def cycleState (F : FloatOps) (h : StateHandles) (this wake : Word) (first last : Word)
    (func : FuncRef) (frameF : Option Nat) : Core :=
  let core := core.setStateField this h.nextthinkF wake
  let core := core.setStateField this h.thinkF func.bits
  let core := core.setStateGlobal h.cycleWrappedG 0
  match frameF.bind fun f => core.mem.fieldOffset this.toNat f 1 with
  | none => core
  | some off =>
    let (next, wrapped) := nextFrame F first last (core.mem.entWord off)
    let core := if wrapped then core.setStateGlobal h.cycleWrappedG 0x3F800000 else core
    { core with mem := core.mem.setEntWord off next }

/-- `default_state_op`. -/
def defaultStateOp (F : FloatOps) (op : StateOp) : Core :=
  match core.progs[core.x.prnum]? with
  | none => core
  | some ps =>
    let h := ps.state
    match h.selfG, h.timeG with
    | some selfG, some timeG =>
      let time := core.mem.g timeG
      let this := core.mem.g selfG
      let wake := F.add time core.config.stateStep
      match op with
      | .state frame think =>
        let core := core.setStateField this h.nextthinkF wake
        let core := core.setStateField this h.thinkF think.bits
        core.setStateField this h.frameF frame
      | .cState first last func => core.cycleState F h this wake first last func h.frameF
      | .cWState first last func => core.cycleState F h this wake first last func h.weaponframeF
      | .thinkTime ent delay =>
        let e := if ent.toNat < core.mem.numEdicts then ent else 0
        core.setStateField e h.nextthinkF (F.add time delay)
    | _, _ => core.warn (.builtin "state opcode needs `self` and `time`")

end Core

namespace Vm

variable (vm : Vm)

/-- `Vm::new`. -/
def new (main : Loaded) (builtins : Builtins) (config : VmConfig) : Except ErrorKind Vm := do
  let core ← buildCore main.program builtins config
  return { core, main, builtins, budget := 0, deadline := false, window := windowFits core }

/-- `Vm::reset`. -/
def reset : Vm :=
  match buildCore vm.main.program vm.builtins vm.core.config with
  | .ok core => { vm with core := core, window := windowFits core }
  | .error _ => vm

/-- An operation of the host or of a builtin. -/
def host (F : FloatOps) (op : HostOp) : Vm :=
  match op with
  | .addProgs loaded reserved =>
    match vm.core.addProgs F loaded.program vm.builtins reserved with
    | (.ok _, core) => { vm with core := core, window := windowFits core }
    | (.error _, core) => { vm with core := core }
  | _ => { vm with core := vm.core.host F vm.builtins op }

/-- `start_budgets`. -/
def startBudgets : Vm :=
  { vm with
    budget := vm.core.config.limits.runaway
    deadline := vm.core.config.limits.deadline }

/-- The run of the interpreter in `execute_inner`, with a budget of `chunk`. -/
def interpret (F : FloatOps) (exitDepth chunk : Nat) : Stop :=
  if vm.core.trace then runTraced F exitDepth vm.core chunk
  else
    let core := { vm.core with traced := false }
    if vm.window then runWindow F exitDepth core chunk else runFast F exitDepth core chunk

/-- An iteration of the loop in `execute_inner` with a budget of `chunk`, up to what the exit
asks for. -/
def runChunk (F : FloatOps) (exitDepth chunk : Nat) : Verdict × Vm :=
  let stop := vm.interpret F exitDepth chunk
  let vm := { vm with core := stop.core }
  match stop.exit with
  | .budget =>
    if vm.budget ≤ chunk then (.runaway, { vm with budget := 0 })
    -- The count that ran out is taken again when the statement runs.
    else (.more, { vm with budget := vm.budget - (chunk - 1) })
  | e => (.exit e, { vm with budget := vm.budget - (chunk - stop.budget) })

/-- The iterations of the loop in `execute_inner` up to its next exit: the budget is taken in chunks
of the given sizes, and what they leave of it at once. The deadline passes with the last of them if
`expires`. -/
def runChunks (F : FloatOps) (exitDepth : Nat) (expires : Bool) : List Nat → Vm → Verdict × Vm
  | [], vm => vm.runChunk F exitDepth vm.budget
  | size :: sizes, vm =>
    match vm.runChunk F exitDepth (min vm.budget size) with
    | (.more, vm) =>
      if expires && sizes.isEmpty then (.deadline, vm) else runChunks F exitDepth expires sizes vm
    | r => r

end Vm

/-- What the host sees. -/
inductive Event where
  | warning (w : Warning)
  /-- `Host::trace`, with the place of the statement. -/
  | trace (prnum func pc : Nat)
  /-- A `Vm::call` returned. -/
  | returned (r : Except VmError (Word × Word × Word))
  /-- A `Vm::run_threads` returned. -/
  | ranThreads (r : Except VmError Nat)

/-- What a call that has not returned is doing. -/
inductive Doing where
  /-- The loop of `execute_inner` is about to run the interpreter. -/
  | interpreting
  /-- A builtin runs. -/
  | builtin
  /-- `Host::state_op` runs. -/
  | stateOp (op : StateOp)
  deriving DecidableEq

/-- What a call restores when its code has run: `execute` the entry depth, a direct call of a builtin
the progs number. -/
inductive Restore where
  | entry (savedEntry : Nat)
  | prnum (savedPrnum : Nat)
  deriving DecidableEq

/-- Who waits for a call: the caller of `Vm::call`, with what `call_inner` saved and where it reads
the result, or `run_threads`, with the threads still waiting and the number that ran. -/
inductive Origin where
  | call (argc : Nat) (builtin : FuncRef) (topLevel : Bool) (retPr : Nat)
  | threads (queue : List Thread) (ran : Nat)

/-- A call that has not returned. -/
structure Pending where
  exitDepth : Nat
  doing : Doing
  restore : Restore
  origin : Origin

/-- A VM, the calls that have not returned (innermost first) and what the host has seen. -/
structure Sys where
  vm : Vm
  stack : List Pending
  events : List Event

/-- A decision of the host, of a builtin or of the loop around the interpreter. -/
inductive Action where
  | host (op : HostOp)
  | call (f : FuncRef) (args : List Arg)
  | runThreads
  /-- The interpreter runs, its budget cut into chunks. -/
  | run (sizes : List Nat) (expires : Bool)
  /-- The running builtin returns. -/
  | finish (r : Except VmError Unit)
  /-- `Host::state_op` returns: whether it handled the opcode. -/
  | stateDone (r : Except VmError Bool)
  | reset

namespace Sys

variable (s : Sys)

/-- Changes the core. -/
def mapCore (f : Core → Core) : Sys := { s with vm := { s.vm with core := f s.vm.core } }

/-- Records an event. -/
def emit (e : Event) : Sys := { s with events := s.events ++ [e] }

/-- `flush_warnings`. -/
def flush : Sys :=
  { s with
    vm := { s.vm with core := { s.vm.core with warnings := [] } }
    events := s.events ++ s.vm.core.warnings.map .warning }

/-- Collects garbage, if the strings want it. -/
def collect : Sys :=
  if s.vm.core.strings.wantsCollection then s.mapCore Core.collectGarbageNow else s

/-- The end of a top-level `call_inner`. -/
def endTopLevel : Sys :=
  let s := if s.vm.core.suppressed > 0 then
      s.mapCore fun core =>
        { core with warnings := core.warnings ++ [⟨.suppressed core.suppressed, []⟩] }
    else s
  s.flush.collect

/-- The end of `call_inner`, with the result of what it called. -/
def endCall (argc : Nat) (builtin : FuncRef) (topLevel : Bool) (retPr : Nat)
    (r : Except VmError Unit) : Sys :=
  let ret := s.vm.core.abortRet.getD (s.vm.core.readReturn retPr)
  let s := s.mapCore fun core =>
    { core with nesting := core.nesting - 1, argc := argc, builtin := builtin, abortRet := none }
  let s := if topLevel then s.endTopLevel else s
  s.emit (.returned (r.map fun _ => ret))

/-- The end of `run_threads_inner`'s loop: the next thread of the queue, or the return. -/
def nextThread (queue : List Thread) (ran : Nat) : Sys :=
  match queue with
  | [] => s.collect.emit (.ranThreads (.ok ran))
  | thread :: queue =>
    let vm := s.vm.startBudgets
    let core := { vm.core with nesting := vm.core.nesting + 1 }
    let depth := core.frames.length
    match core.resumeThread thread with
    | (.error kind, core) =>
      let s := { s with vm := { vm with core := { core with nesting := core.nesting - 1 } } }.flush
      (s.mapCore fun core => { core with threads := core.threads ++ queue }).emit
        (.ranThreads (.error (.new kind)))
    | (.ok (), core) =>
      { s with
        vm := { vm with core := { core with entryDepth := depth } }
        stack := ⟨depth, .interpreting, .entry core.entryDepth, .threads queue ran⟩ :: s.stack }

/-- The end of an iteration of `run_threads_inner`, with the result of `resume`. -/
def endThread (queue : List Thread) (ran : Nat) (r : Except VmError Unit) : Sys :=
  let s := s.mapCore fun core => { core with abortRet := none, nesting := core.nesting - 1 }
  let s := s.flush
  match r with
  | .ok () => s.nextThread queue (ran + 1)
  | .error e =>
    (s.mapCore fun core => { core with threads := core.threads ++ queue }).emit
      (.ranThreads (.error e))

/-- Restores what a call saved. -/
def restore (r : Restore) : Sys :=
  match r with
  | .entry savedEntry => s.mapCore fun core => { core with entryDepth := savedEntry }
  | .prnum savedPrnum =>
    s.mapCore fun core => { core with x := { core.x with prnum := savedPrnum } }

/-- Hands a result to whoever waits for it. -/
def deliver (origin : Origin) (r : Except VmError Unit) : Sys :=
  match origin with
  | .call argc builtin topLevel retPr => s.endCall argc builtin topLevel retPr r
  | .threads queue ran => s.endThread queue ran r

/-- A call's code has run, with a result; `s` is without the call. -/
def complete (p : Pending) (r : Except VmError Unit) : Sys :=
  (s.restore p.restore).deliver p.origin r

/-- A call fails: the error gets a backtrace and the frames unwind. -/
def failed (p : Pending) (e : VmError) : Sys :=
  let e' := (s.vm.core.fail e p.exitDepth).1
  (s.mapCore fun core => (core.fail e p.exitDepth).2).complete p (.error e')

/-- `run_builtin`, up to the call of the builtin. -/
def enterBuiltin (p : Pending) (slot : Nat) (func : FuncRef) : Sys :=
  if s.vm.builtins.func slot then
    let s := s.mapCore fun core => { core with builtin := func }
    { s with stack := { p with doing := .builtin } :: s.stack }
  else s.failed p (.new (s.vm.core.missing func))

/-- `Flow::Continue`. -/
def flowContinue (p : Pending) : Sys :=
  match p.restore with
  | .entry _ => { s with stack := { p with doing := .interpreting } :: s.stack }
  | .prnum _ => s.complete p (.ok ())

/-- The rest of `run_builtin`, once the builtin has returned. -/
def leaveBuiltin (p : Pending) (r : Except VmError Unit) : Sys :=
  match r with
  | .ok () => s.flowContinue p
  | .error e =>
    match e.abort, e.kind with
    | some ret, _ =>
      (s.mapCore fun core => { core with abortRet := some ret }.unwind p.exitDepth).complete p (.ok ())
    | none, .builtin msg =>
      if s.vm.core.config.developer then
        (s.mapCore fun core => (core.warn (.builtin msg)).retRaw [0, 0, 0]).flush.flowContinue p
      else s.failed p e
    | none, _ => s.failed p e

/-- The `match` on the exit in `execute_inner`. -/
def onVerdict (p : Pending) (v : Verdict) : Sys :=
  match v with
  | .runaway => s.flush.failed p (.new .runaway)
  | .deadline => s.flush.failed p (.new .deadline)
  | .exit .returned => s.flush.complete p (.ok ())
  | .exit (.builtin slot func) => s.flush.enterBuiltin p slot func
  | .exit (.stateOp op) => { s with stack := { p with doing := .stateOp op } :: s.stack }
  | .exit (.fault kind) => s.flush.failed p (.new kind)
  | .exit .trace =>
    let x := s.vm.core.x
    { s.emit (.trace x.prnum x.func x.pc) with stack := p :: s.stack }
  | .exit .budget | .more => { s with stack := p :: s.stack }

/-- The call of the callee in `call_inner`; `origin` remembers what its end restores. -/
def dispatch (f : FuncRef) (callee : Option Callee) (origin : Origin) : Sys :=
  let core := s.vm.core
  let depth := core.frames.length
  match callee with
  | some .qc =>
    match core.enter f.progs f.index core.x.pc with
    | (.ok (), entered) =>
      let s := s.mapCore fun _ => { entered with entryDepth := depth }
      { s with stack := ⟨depth, .interpreting, .entry core.entryDepth, origin⟩ :: s.stack }
    | (.error kind, entered) =>
      (s.mapCore fun _ => entered).deliver origin
        (.error ((VmError.new kind).withBacktrace entered.backtrace))
  | some (.builtin slot) =>
    let p : Pending := ⟨depth, .interpreting, .prnum core.x.prnum, origin⟩
    (s.mapCore fun core => { core with x := { core.x with prnum := f.progs } }).enterBuiltin p slot f
  | some .null => s.deliver origin (.error (.new .nullFunction))
  | some .missing =>
    s.deliver origin (.error ((VmError.new (core.missing f)).withBacktrace core.backtrace))
  | some .invalid | none => s.deliver origin (.error (.new (.invalidFunction f)))

/-- `call_inner`. -/
def call (f : FuncRef) (args : List Arg) : Sys :=
  let core := s.vm.core
  if core.nesting ≥ core.config.limits.reentry then
    s.emit (.returned (.error (.new .reentrancy)))
  else
    let callee := core.callee f
    let topLevel := core.nesting == 0
    let vm := if topLevel then
        { s.vm with core := { core with warningsThisCall := 0, suppressed := 0 } }.startBudgets
      else s.vm
    -- QuakeC callees take their arguments from the calling context's PARM slots.
    let pr := if callee = some .qc then core.x.prnum else f.progs
    match vm.core.writeArgs pr args with
    | (.error kind, written) =>
      { s with vm := { vm with core := written } }.emit (.returned (.error (.new kind)))
    | (.ok (), written) =>
      -- The nesting is below a limit that a `u32` holds.
      let written := { written with argc := args.length, nesting := written.nesting + 1 }
      { s with vm := { vm with core := written } }.dispatch f callee
        (.call core.argc core.builtin topLevel pr)

/-- `run_threads_inner`. -/
def runThreads (F : FloatOps) : Sys :=
  if s.vm.core.nesting > 0 then
    s.emit (.ranThreads (.error (.new (.host "run_threads called while QuakeC is running"))))
  else
    let due := (s.vm.core.takeDue F).1
    (s.mapCore fun core => (core.takeDue F).2).nextThread due 0

/-- Whether the host or a builtin has control. -/
def hostRuns : Bool :=
  match s.stack with
  | [] => true
  | p :: _ => p.doing ≠ .interpreting

/-- One action; `none` where it cannot happen. -/
def act (F : FloatOps) (a : Action) : Option Sys :=
  match a, s.stack with
  | .host op, _ => if s.hostRuns then some { s with vm := s.vm.host F op } else none
  | .call f args, _ => if s.hostRuns then some (s.call f args) else none
  | .runThreads, _ => if s.hostRuns then some (s.runThreads F) else none
  | .reset, _ => if s.hostRuns then some { s with vm := s.vm.reset } else none
  | .run sizes expires, p :: rest =>
    if p.doing ≠ .interpreting ∨ (!s.vm.deadline && !sizes.isEmpty) then none
    else
      let r := Vm.runChunks F p.exitDepth expires sizes s.vm
      some (onVerdict { s with vm := r.2, stack := rest } p r.1)
  | .finish r, p :: rest =>
    if p.doing = .builtin then some ({ s with stack := rest }.leaveBuiltin p r) else none
  | .stateDone r, p :: rest =>
    match p.doing with
    | .stateOp op =>
      let s := { s with stack := rest }
      match r with
      | .error e => some (s.failed p e)
      | .ok handled =>
        let s := if handled then s else s.mapCore fun core => core.defaultStateOp F op
        some { s with stack := { p with doing := .interpreting } :: s.stack }
    | _ => none
  | _, _ => none

/-- A builtin resets the VM it runs in: `Vm::reset` looks at no call that has not returned. -/
def resetsInside : Action → Bool
  | .reset => !s.stack.isEmpty
  | _ => false

/-- One action of a system whose builtins do not reset the VM: it is reset between host calls only. -/
def actIdleReset (F : FloatOps) (a : Action) : Option Sys :=
  if s.resetsInside a then none else s.act F a

/-- A sequence of such actions. -/
def actsIdleReset (F : FloatOps) : List Action → Sys → Option Sys
  | [], s => some s
  | a :: as, s => (s.actIdleReset F a).bind (actsIdleReset F as)

variable {s} {F : FloatOps} {a : Action} {t : Sys}

/-- Only a reset tells the two kinds of action apart. -/
lemma actIdleReset_of_ne (other : a ≠ .reset) : s.actIdleReset F a = s.act F a := by
  unfold actIdleReset
  rw [if_neg]
  cases a with
  | reset => exact absurd rfl other
  | _ => exact Bool.false_ne_true

lemma actIdleReset_eq_some :
    s.actIdleReset F a = some t ↔ s.act F a = some t ∧ (a = .reset → s.stack = []) := by
  by_cases reset : a = .reset
  · subst reset
    unfold actIdleReset resetsInside
    cases s.stack with
    | nil => exact ⟨fun e => ⟨e, fun _ => rfl⟩, fun e => e.1⟩
    | cons p rest => exact ⟨nofun, fun e => absurd (e.2 rfl) (List.cons_ne_nil _ _)⟩
  · rw [actIdleReset_of_ne reset]
    exact ⟨fun e => ⟨e, fun same => absurd same reset⟩, fun e => e.1⟩

/-- A reset between host calls. -/
lemma actIdleReset_reset (e : s.actIdleReset F .reset = some t) :
    s.stack = [] ∧ t = { s with vm := s.vm.reset } := by
  rw [actIdleReset_eq_some] at e
  obtain ⟨e, apart⟩ := e
  simp only [act] at e
  split at e
  next => exact ⟨apart rfl, (Option.some.inj e).symm⟩
  next => cases e

end Sys

/-- A system just after `Vm::new`. -/
def Vm.start (vm : Vm) : Sys := ⟨vm, [], []⟩

end Qcvm

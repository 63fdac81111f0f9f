import Mathlib.Logic.Function.Iterate
import Qcvm.Progs.Load
import Qcvm.Vm.Memory
import Qcvm.Vm.Strings

/-!
# The core of the VM

`vm/core.rs`: registers, frames and loaded progs, and the call and return machinery shared by the
interpreter and the host API, with the copying between progs of `vm/multiprogs.rs` it uses. The
frame stack is a list, innermost frame first. State of the standard builtins that no function
modelled here reads is left out.
-/

namespace Qcvm

open Lib

/-- `func` value meaning "no QuakeC function is running". -/
def noFunction : Nat := u32Max

/-- Byte offset of the RETURN slot within a progs' globals. -/
def ofsReturn : Nat := 4

/-- Byte offset of PARM0 within a progs' globals. -/
def ofsParm0 : Nat := 16

/-- Byte offset of PARM1 within a progs' globals. -/
def ofsParm1 : Nat := 28

/-- Statements of a progs are padded to this many. -/
def codeWindow : Nat := 65536

/-- Words from PARM0 through the end of PARM7. -/
def parmWords : Nat := 24

/-- The comparison a `SWITCH` selected. -/
inductive SwitchKind where
  | float
  | vector
  | string
  | int
  deriving DecidableEq, Repr

/-- Interpreter registers. -/
structure Exec where
  pc : Nat
  func : Nat
  prnum : Nat
  pushed : Nat
  lsTop : Nat
  switchRef : Nat
  switchKind : SwitchKind
  localsAddr : Nat
  localsWords : Nat
  deriving DecidableEq, Repr

/-- The registers while no QuakeC runs. -/
def Exec.idle : Exec := ⟨0, noFunction, 0, 0, 0, 0, .float, 0, 0⟩

/-- A saved caller context. -/
structure Frame where
  resumePc : Nat
  func : Nat
  prnum : Nat
  pushed : Nat
  switchRef : Nat
  switchKind : SwitchKind
  /-- Local-stack word where the callee's saved locals start. -/
  localsAt : Nat
  localsAddr : Nat
  localsWords : Nat
  deriving DecidableEq, Repr

/-- What entering a QuakeC function needs, with absolute addresses. -/
structure QcFunc where
  entry : Nat
  localsAddr : Nat
  localsWords : Nat
  copiesStart : Nat
  copiesEnd : Nat
  deriving DecidableEq, Repr

/-- How a function slot is dispatched. -/
inductive Callee where
  | null
  | qc
  | builtin (slot : Nat)
  | missing
  | invalid
  deriving DecidableEq, Repr

/-- Globals and fields used by the in-VM animation opcodes. -/
structure StateHandles where
  selfG : Option Nat
  timeG : Option Nat
  cycleWrappedG : Option Nat
  frameF : Option Nat
  thinkF : Option Nat
  nextthinkF : Option Nat
  weaponframeF : Option Nat

/-- A global kept in sync between progs: its absolute byte offset and size in each progs. -/
structure SharedGlobal where
  offset : Nat
  words : Nat

/-- A progs loaded into a VM. -/
structure ProgsState where
  program : Program
  /-- Byte address of its globals. -/
  gbase : Nat
  /-- The statements with their global operands relocated to absolute byte addresses. -/
  code : Arr Stmt
  callees : List Callee
  funcs : List (Option QcFunc)
  copies : List ParamCopy
  state : StateHandles
  shared : List (Option SharedGlobal)

namespace Program

variable (p : Program)

/-- `num_globals`. -/
def numGlobals : Nat := min p.globals.size u32Max

/-- `num_functions`. -/
def numFunctions : Nat := min p.functions.length u32Max

/-- `string_at`. -/
def stringAt (offset : Nat) : List Byte := cstrAt p.strings offset

/-- `source_line`. -/
def sourceLine (index : Nat) : Option Nat := p.lineNumbers.bind (·[index]?)

/-- `copies`: the parameter copies of a function. -/
def copies (f : Function) : List ParamCopy :=
  if f.copiesStart ≤ f.copiesEnd ∧ f.copiesEnd ≤ p.paramCopies.length then
    (p.paramCopies.take f.copiesEnd).drop f.copiesStart
  else []

/-- `global_def_raw`. -/
def globalDef (name : List Byte) : Option Def := do p.globalDefs[← p.globalsByName.lookup name]?

end Program

/-- `relocate` of one statement. -/
def relocateStmt (gbase : Nat) (st : Stmt) : Stmt :=
  let at' := fun kind v => if Operand.isRelocated kind then wrappingAdd v gbase else v
  { st with
    a := at' (st.op.operand .a) st.a
    b := at' (st.op.operand .b) st.b
    c := at' (st.op.operand .c) st.c }

/-- `relocate`. -/
def relocate (program : Program) (gbase : Nat) : Arr Stmt :=
  program.statements.map (relocateStmt gbase)

/-- `pad_code`: pads statements to `codeWindow` with the sentinel; leaves longer programs alone. -/
def padCode (code : Arr Stmt) : Arr Stmt :=
  if code.size ≥ codeWindow then code else code.resize codeWindow .sentinel

/-- The call information of the functions, and all their copies with absolute addresses. -/
def bindFunctions (program : Program) (gbase : Nat) :
    List ParamCopy → List Function → List (Option QcFunc) × List ParamCopy
  | copies, [] => ([], copies)
  | copies, f :: rest =>
    match f.kind with
    | .quakeC entry =>
      if copies.length > u32Max then
        let (fs, all) := bindFunctions program gbase copies rest
        (none :: fs, all)
      else
        let moved := (program.copies f).map fun c =>
          ⟨wrappingAdd c.src gbase, wrappingAdd c.dst gbase⟩
        let next := copies ++ moved
        let func : QcFunc :=
          { entry := entry
            localsAddr := wrappingAdd gbase (f.parmStart * 4 % (u32Max + 1))
            localsWords := f.locals
            copiesStart := copies.length
            copiesEnd := next.length }
        let (fs, all) := bindFunctions program gbase next rest
        ((if next.length > u32Max then none else some func) :: fs, all)
    | _ =>
      let (fs, all) := bindFunctions program gbase copies rest
      (none :: fs, all)

/-- `ProgsState::new`: the state of `program` loaded with its globals at `gbase`. -/
def ProgsState.new (program : Program) (gbase : Nat) (callees : List Callee)
    (state : StateHandles) : ProgsState :=
  let bound := bindFunctions program gbase [] program.functions
  { program := program
    gbase := gbase
    code := padCode (relocate program gbase)
    callees := callees
    funcs := bound.1
    copies := bound.2
    state := state
    shared := [] }

/-- `ProgsState::num_globals`. -/
def ProgsState.numGlobals (ps : ProgsState) : Nat := ps.program.numGlobals

/-- One entity field of the VM-wide field layout. -/
structure FieldEntry where
  name : List Byte
  ty : EvType
  ofs : Nat

/-- The VM-wide entity field layout. -/
structure FieldTable where
  entries : List FieldEntry
  /-- Words in use per entity. -/
  words : Nat

namespace FieldTable

/-- `FieldTable::get`: the first entry of that name; the empty name has none. -/
def get (t : FieldTable) (name : List Byte) : Option FieldEntry :=
  if name = [] then none else t.entries.find? (·.name = name)

/-- `FieldTable::push`. -/
def push (t : FieldTable) (name : List Byte) (ty : EvType) (ofs : Nat) : FieldTable :=
  { t with entries := t.entries ++ [⟨name, ty, ofs⟩] }

end FieldTable

/-- A small, seedable PRNG (SplitMix64). -/
structure Rng where
  state : DWord

namespace Rng

/-- `next_u64`. -/
def nextU64 (r : Rng) : DWord × Rng :=
  let s := r.state + 0x9E3779B97F4A7C15
  let z := (s ^^^ (s >>> 30)) * 0xBF58476D1CE4E5B9
  let z := (z ^^^ (z >>> 27)) * 0x94D049BB133111EB
  (z ^^^ (z >>> 31), ⟨s⟩)

/-- `rand15`: a 15-bit value. -/
def rand15 (r : Rng) : Word × Rng :=
  let (z, r) := r.nextU64
  (((z >>> 33) &&& 0x7FFF).setWidth 32, r)

end Rng

/-- A field filled in on spawn: from a float global if present, else `value`. -/
structure SpawnFill where
  field : Nat
  global : Option Nat
  value : Word

/-- Switches restoring FTE behaviours. -/
structure FteCompat where
  neSRawStrcmp : Bool
  loadI64Zero3 : Bool
  switchResetOnCall : Bool

/-- Hard resource limits; `deadline` says whether there is one. -/
structure Limits where
  maxEdicts : Nat
  localStackWords : Nat
  callDepth : Nat
  runaway : Nat
  deadline : Bool
  reentry : Nat
  heapBytes : Nat
  tempStrings : Nat
  tempStringBytes : Nat
  progsAreaBytes : Nat
  progs : Nat
  threads : Nat
  threadBytes : Nat
  warningsPerCall : Nat

/-- A field given a non-zero value whenever an entity is spawned. -/
structure SpawnDefault where
  field : List Byte
  global : Option (List Byte)
  value : Word

/-- VM configuration. -/
structure VmConfig where
  limits : Limits
  developer : Bool
  seed : DWord
  stateStep : Word
  removeClears : List (List Byte)
  spawnDefaults : List SpawnDefault
  firstSpawnable : Nat
  fieldReserveBytes : Nat
  sharedGlobals : List (List Byte)
  compat : FteCompat

/-- `Limits::default`. -/
def Limits.default : Limits where
  maxEdicts := 65536
  localStackWords := 1048576
  callDepth := 1024
  runaway := 100000000
  deadline := false
  reentry := 64
  heapBytes := 67108864
  tempStrings := 1048576
  tempStringBytes := 268435456
  progsAreaBytes := 16777216
  progs := 16
  threads := 1024
  threadBytes := 16777216
  warningsPerCall := 64

/-- `VmConfig::base`. -/
def VmConfig.base (clears : List String) : VmConfig where
  limits := .default
  developer := false
  seed := 0x5EED0FC5C0DE
  stateStep := 0x3DCCCCCD
  removeClears := clears.map ascii
  spawnDefaults := []
  firstSpawnable := 0
  fieldReserveBytes := 256
  sharedGlobals := ["self", "other", "time", "frametime"].map ascii
  compat := ⟨false, false, false⟩

/-- `VmConfig::menu`. -/
def VmConfig.menu : VmConfig := .base []

/-- One function activation of a sleeping thread. -/
structure Activation where
  prnum : Nat
  func : Nat
  pc : Nat
  pushed : Nat
  switchRef : Nat
  switchKind : SwitchKind

/-- A suspended QuakeC thread. -/
structure Thread where
  /-- Value of the `time` global at which the thread wakes. -/
  wake : Word
  /-- Root first. -/
  chain : List Activation
  /-- Captured local-stack bytes, then the captured locals of each function in `locals`. -/
  data : List Byte
  stackLen : Nat
  locals : List (Nat × Nat)
  resume : Word × Word × Word
  /-- `self` and `other`: global offset, entity, spawn serial. -/
  selves : List (Nat × Word × Nat)

/-- Everything the interpreter touches. -/
structure Core where
  mem : Memory
  strings : Strings
  progs : List ProgsState
  fields : FieldTable
  frames : List Frame
  x : Exec
  argc : Nat
  builtin : FuncRef
  nesting : Nat
  rng : Rng
  config : VmConfig
  warnings : List Warning
  warningsThisCall : Nat
  suppressed : Nat
  trace : Bool
  traced : Bool
  removeClears : List Nat
  spawnDefaults : List SpawnFill
  abortRet : Option AbortRet
  /-- The names of the shared-global slots. -/
  shared : List (List Byte)
  entryDepth : Nat
  threads : List Thread
  /-- Every warning raised so far, kept or left out: a history that `warn` adds to and no code reads. -/
  raised : List Warning

/-- `(source offset, destination offset, words)` for every slot both progs have. -/
def pairs (a b : ProgsState) : List (Nat × Nat × Nat) :=
  (a.shared.zip b.shared).filterMap fun
    | (some x, some y) => some (x.offset, y.offset, min x.words y.words)
    | _ => none

/-- Copies the given ranges within region S, in order. -/
def copyPairs (m : Memory) (ranges : List (Nat × Nat × Nat)) : Memory :=
  ranges.foldl (fun m (s, d, n) => m.copyG s d n) m

namespace Core

variable (core : Core)

/-- Byte offset of the current progs' globals. -/
def gbase : Nat := (core.progs[core.x.prnum]?.map (·.gbase)).getD 0

/-- The backtrace entry of a function, if it is one. -/
def backtraceFrame (prnum func stmt : Nat) : Option BacktraceFrame :=
  if func = noFunction then none
  else
    (core.progs[prnum]?).map fun ps =>
      let info := ps.program.functions[func]?
      { function := .new prnum func
        name := (info.map fun f => ps.program.stringAt f.name).getD []
        file := (info.map fun f => ps.program.stringAt f.file).getD []
        statement := stmt
        line := ps.program.sourceLine stmt }

/-- `backtrace`: the current QuakeC call stack, innermost first. -/
def backtrace : Backtrace :=
  (core.backtraceFrame core.x.prnum core.x.func core.x.pc).toList ++
    core.frames.filterMap fun f => core.backtraceFrame f.prnum f.func (f.resumePc - 1)

/-- `warn`: records a warning with the current backtrace, rate limited per top-level call. -/
def warn (kind : WarningKind) : Core :=
  let count := saturatingAdd core.warningsThisCall 1
  let raised := core.raised ++ [⟨kind, core.backtrace⟩]
  if count > core.config.limits.warningsPerCall then
    { core with
      warningsThisCall := count
      suppressed := saturatingAdd core.suppressed 1
      raised := raised }
  else
    { core with
      warningsThisCall := count
      warnings := core.warnings ++ [⟨kind, core.backtrace⟩]
      raised := raised }

/-- The text of a string reference, or `none` if it resolves to nothing. -/
def strBytes (r : Word) : Option (List Byte) :=
  match classify r with
  | .linear p => core.mem.cstr p
  | .temp slot => (core.strings.tempRaw slot).map untilNul
  | .static index => core.strings.staticStr index

/-- `apply_spawn_defaults`. -/
def applySpawnDefaults (e : Nat) : Core :=
  let fill := fun (m : Memory) (d : SpawnFill) =>
    let v := (d.global.map m.g).getD d.value
    match m.fieldOffset e d.field 1 with
    | some off => m.setEntWord off v
    | none => m
  { core with mem := core.spawnDefaults.foldl fill core.mem }

/-- `switch_in`: copies PARM0–7 and the shared globals from progs `src` to progs `dst`. -/
def switchIn (src dst : Nat) : Core :=
  match core.progs[src]?, core.progs[dst]? with
  | some a, some b =>
    let mem := core.mem.copyG (a.gbase + ofsParm0) (b.gbase + ofsParm0) parmWords
    { core with mem := copyPairs mem (pairs a b) }
  | _, _ => core

/-- `switch_out`: copies RETURN and the shared globals from progs `src` back to progs `dst`. -/
def switchOut (src dst : Nat) : Core :=
  match core.progs[src]?, core.progs[dst]? with
  | some a, some b =>
    let mem := core.mem.copyG (a.gbase + ofsReturn) (b.gbase + ofsReturn) 3
    { core with mem := copyPairs mem (pairs a b) }
  | _, _ => core

/-- The parameter copies of a function, from PARM slots into its locals. -/
def copyParams (m : Memory) (copies : List ParamCopy) : Memory :=
  copies.foldl (fun m c => m.setG c.dst (m.g c.src)) m

/-- The slice `copies_start..copies_end`, empty if it is out of range. -/
def copiesOf (ps : ProgsState) (f : QcFunc) : List ParamCopy :=
  if f.copiesStart ≤ f.copiesEnd ∧ f.copiesEnd ≤ ps.copies.length then
    (ps.copies.take f.copiesEnd).drop f.copiesStart
  else []

/-- Saves the callee's locals above what the caller pushed; the local-stack words where they start
and end, and the memory. -/
def saveLocals (f : QcFunc) : Option (Nat × Nat × Memory) := do
  let lsTop ← checkedAdd core.x.lsTop core.x.pushed
  let newTop ← checkedAdd lsTop f.localsWords
  if newTop > core.mem.lsWords then none
  let mem ← core.mem.moveS f.localsAddr (core.mem.lsBase + 4 * lsTop) (4 * f.localsWords)
  return (lsTop, newTop, mem)

/-- The frame that resumes the current context at `resumePc`. -/
def saveFrame (resumePc localsAt : Nat) : Frame :=
  { resumePc := resumePc
    func := core.x.func
    prnum := core.x.prnum
    pushed := core.x.pushed
    switchRef := core.x.switchRef
    switchKind := core.x.switchKind
    localsAt := localsAt
    localsAddr := core.x.localsAddr
    localsWords := core.x.localsWords }

/-- The call information of function `index` of progs `prnum`. -/
def lookupFunc (prnum index : Nat) : Option (ProgsState × QcFunc) := do
  let ps ← core.progs[prnum]?
  let f ← (ps.funcs[index]?).join
  return (ps, f)

/-- `enter`: enters QuakeC function `index` of progs `prnum`, resuming the current context at
`resumePc` when it returns. -/
def enter (prnum index resumePc : Nat) : Except ErrorKind Unit × Core :=
  if core.frames.length ≥ core.config.limits.callDepth then (.error .callDepth, core)
  else
    let core := if prnum ≠ core.x.prnum ∧ core.progs.length > 1 then
        core.switchIn core.x.prnum prnum
      else core
    match core.lookupFunc prnum index with
    | none => (.error (.invalidFunction (.new prnum index)), core)
    | some (ps, f) =>
      match core.saveLocals f with
      | none => (.error .localStack, core)
      | some (lsTop, newTop, mem) =>
        (.ok (), { core with
          mem := copyParams mem (copiesOf ps f)
          frames := core.saveFrame resumePc lsTop :: core.frames
          x :=
            { pc := f.entry
              func := index
              prnum := prnum
              pushed := 0
              lsTop := newTop
              switchRef := 0
              switchKind := .float
              localsAddr := f.localsAddr
              localsWords := f.localsWords } })

/-- Moves the locals saved on the local stack back to their globals. -/
def restoreLocals : Core :=
  let top := core.x.lsTop - core.x.localsWords
  let mem := core.mem.moveS (core.mem.lsBase + 4 * top) core.x.localsAddr (4 * core.x.localsWords)
  { core with mem := mem.getD core.mem, x := { core.x with lsTop := top } }

/-- The registers a frame restores; `lsTop` is the local-stack top without the callee's locals. -/
def resumeExec (frame : Frame) (lsTop : Nat) : Exec :=
  let reset := core.config.compat.switchResetOnCall
  { pc := frame.resumePc
    func := frame.func
    prnum := frame.prnum
    pushed := frame.pushed
    lsTop := lsTop - frame.pushed
    switchRef := if reset then 0 else frame.switchRef
    switchKind := if reset then .float else frame.switchKind
    localsAddr := frame.localsAddr
    localsWords := frame.localsWords }

/-- `leave`: returns from the current function, restoring its caller's locals and context. -/
def leave : Core :=
  let calleePrnum := core.x.prnum
  let core := core.restoreLocals
  match core.frames with
  | [] => core
  | frame :: frames =>
    let core := { core with frames := frames, x := core.resumeExec frame core.x.lsTop }
    if frame.prnum ≠ calleePrnum then core.switchOut calleePrnum frame.prnum else core

/-- `unwind`: pops frames down to `depth`, restoring locals. -/
def unwind (depth : Nat) : Core := Nat.iterate leave (core.frames.length - depth) core

/-- The result of `f`, or the error, of a builtin that is not bound. -/
def missingBuiltin (target : FuncRef) : ErrorKind :=
  let info := do
    let ps ← core.progs[target.progs]?
    let f ← ps.program.functions[target.index]?
    return (ps, f)
  match info with
  | some (ps, f) =>
    .builtinNotImplemented (match f.kind with | .builtin number => number | _ => 0)
      (ps.program.stringAt f.name)
  | none => .builtinNotImplemented 0 []

/-- How a function reference is dispatched; `none` if it names no function. -/
def callee (target : FuncRef) : Option Callee := do
  (← core.progs[target.progs]?).callees[target.index]?

end Core

end Qcvm

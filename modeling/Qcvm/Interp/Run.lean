import Qcvm.Interp.Statement
import Qcvm.Lib.Run

/-!
# The interpreter loop

`run` of `vm/interp.rs`. One step of the machine is one statement. The loop's local variables are
its state: the copy of `pc` it works on, the budget, and what `'reload` takes from the current progs.
A reload keeps the cached statements when the progs number is the cached one, which it is at the
very first reload of a run for progs 255.

The view of region S is taken again after an arm that needed all of the core (`rewin!`); region S
never changes its length inside the loop, so that check is made at the reload only.
-/

namespace Qcvm

open Lib

/-- Why the interpreter loop stopped. -/
inductive Exit where
  | returned
  | builtin (slot : Nat) (func : FuncRef)
  | stateOp (op : StateOp)
  | trace
  | budget
  | fault (kind : ErrorKind)
  deriving DecidableEq

/-- The variables of the `'reload` scope. -/
structure Locals where
  prnum : Nat
  code : Arr Stmt
  gb : Nat
  ng : Nat

/-- The interpreter before a statement. -/
structure At where
  core : Core
  loc : Locals
  pc : Nat
  budget : Nat

/-- The interpreter stopped. -/
structure Stop where
  exit : Exit
  core : Core
  budget : Nat

/-- `fault!`. -/
def faultAt (kind : ErrorKind) (core : Core) (pc budget : Nat) : Status At Stop :=
  .done ⟨.fault kind, core.markPc pc, budget⟩

/-- `'reload`, with the statements cached for progs `cachedPr`. -/
def reload (V : View) (core : Core) (budget cachedPr : Nat) (cached : Arr Stmt) :
    Status At Stop :=
  let prnum := core.x.prnum
  match core.progs[prnum]? with
  | none => .done ⟨.fault (.invalidFunction (.new prnum core.x.func)), core, budget⟩
  | some ps =>
    let code := if cachedPr ≠ prnum then ps.code else cached
    if !V.coversCode code then .done ⟨.fault .jumpOutOfRange, core, budget⟩
    else if !V.covers core.mem.s then faultAt (.badPointerRead 0) core core.x.pc budget
    else .running ⟨core, ⟨prnum, code, ps.gbase, ps.numGlobals⟩, core.x.pc, budget⟩

/-- The start of `run`. -/
def start (V : View) (core : Core) (budget : Nat) : Status At Stop :=
  match core.progs.head? with
  | none => .done ⟨.fault (.invalidFunction .null), core, budget⟩
  | some ps => reload V core budget 255 ps.code

/-- The place of statement `st` in the code. -/
def At.site (a : At) (V : View) (st : Stmt) : Site :=
  { view := V, st := st, pc := a.pc, gb := a.loc.gb, ng := a.loc.ng, prnum := a.loc.prnum }

/-- What follows the charge of a statement. -/
def proceed (V : View) (a : At) (r : Except ErrorKind After × Core) : Status At Stop :=
  let core := r.2
  match r.1 with
  | .error kind => faultAt kind core a.pc a.budget
  | .ok .next => .running { a with core := core, pc := wrappingAdd a.pc 1 }
  | .ok (.goto target) => .running { a with core := core, pc := target }
  | .ok .reload => reload V core a.budget a.loc.prnum a.loc.code
  | .ok .returned => .done ⟨.returned, core, a.budget⟩
  | .ok (.builtin slot func) =>
    .done ⟨.builtin slot func, core.markPc (wrappingAdd a.pc 1), a.budget⟩

/-- `tick!`, then the rest of the statement. -/
def charge (F : FloatOps) (V : View) (trace : Bool) (a : At) (st : Stmt) (after : Arm After) :
    Status At Stop :=
  let budget := a.budget - 1
  if budget = 0 then .done ⟨.budget, { a.core.markPc a.pc with traced := trace }, budget⟩
  else
    let a := { a with budget := budget }
    proceed V a (after.run ((a.site V st).handle F) a.core)

/-- The statement at `pc`, once it has been traced. -/
def execute (F : FloatOps) (V : View) (trace : Bool) (exitDepth : Nat) (a : At) : Status At Stop :=
  match V.stmtAt a.loc.code a.pc with
  | none => faultAt .jumpOutOfRange a.core a.pc a.budget
  | some st =>
    let site := a.site V st
    let r := (statement F site exitDepth).run (site.handle F) a.core
    let a := { a with core := r.2 }
    match r.1 with
    | .error kind => faultAt kind a.core a.pc a.budget
    | .ok .next => .running { a with pc := wrappingAdd a.pc 1 }
    | .ok (.stateOp op) =>
      .done ⟨.stateOp op, a.core.markPc (wrappingAdd a.pc 1), a.budget⟩
    | .ok (.charge after) => charge F V trace a st after

/-- One pass of the inner loop. -/
def step (F : FloatOps) (V : View) (trace : Bool) (exitDepth : Nat) (a : At) : Status At Stop :=
  if trace && !a.core.traced then
    .done ⟨.trace, { a.core.markPc a.pc with traced := true }, a.budget⟩
  else
    let core := if trace then { a.core with traced := false } else a.core
    execute F V trace exitDepth { a with core := core }

/-- The length of the longest code of a core's progs. -/
def codeLength (core : Core) : Nat := core.progs.foldr (fun ps n => max ps.code.size n) 0

/-- Statements after which a run with this budget has stopped. -/
def runBound (core : Core) (budget : Nat) : Nat := (budget + 1) * (codeLength core + 1)

/-- `run`: runs until the frame stack returns to `exitDepth`, a builtin must be called, a fault, or
the budget is spent. -/
def run (F : FloatOps) (V : View) (trace : Bool) (exitDepth : Nat) (core : Core) (budget : Nat) :
    Stop :=
  match Status.runFor (step F V trace exitDepth) (runBound core budget) (start V core budget) with
  | .done stop => stop
  | .running a => ⟨.budget, a.core, 0⟩

/-- `run_fast`. -/
def runFast (F : FloatOps) : Nat → Core → Nat → Stop := run F .whole false

/-- `run_window`. -/
def runWindow (F : FloatOps) : Nat → Core → Nat → Stop := run F .window false

/-- `run_traced`. -/
def runTraced (F : FloatOps) : Nat → Core → Nat → Stop := run F .whole true

/-! ## What operations keep -/

/-- A property of cores that every operation of the loop keeps. -/
structure Core.Upheld (F : FloatOps) (P : Core → Prop) : Prop where
  handle : ∀ (site : Site) (f : Micro) {core : Core}, P core → P (site.handle F f core).2
  mark : ∀ (pc : Nat) {core : Core}, P core → P (core.markPc pc)
  traced : ∀ (on : Bool) {core : Core}, P core → P { core with traced := on }

namespace Core.Upheld

variable {F : FloatOps} {P : Core → Prop} {V : View} {trace : Bool} {exitDepth : Nat}

/-- The core of the machine, or the one it stopped with, has the property. -/
def Now (P : Core → Prop) : Status At Stop → Prop := Status.Holds (fun a => P a.core) fun s => P s.core

variable (U : Upheld F P)
include U

lemma arm {α : Type} (site : Site) (p : Arm α) {core : Core} (h : P core) :
    P (p.run (site.handle F) core).2 :=
  Prog.run_preserves p.all_true (fun f _ _ h => U.handle site f h) h

lemma reload {core : Core} (h : P core) (budget cachedPr : Nat) (cached : Arr Stmt) :
    Now P (Qcvm.reload V core budget cachedPr cached) := by
  unfold Qcvm.reload
  dsimp only
  split
  next => exact h
  next ps _ =>
    generalize (if cachedPr ≠ core.x.prnum then ps.code else cached) = code
    split
    next => exact h
    next =>
      split
      next => exact U.mark _ h
      next => exact h

lemma start {core : Core} (h : P core) (budget : Nat) : Now P (Qcvm.start V core budget) := by
  unfold Qcvm.start
  split
  next => exact h
  next => exact U.reload h _ _ _

lemma proceed (a : At) {r : Except ErrorKind After × Core} (h : P r.2) : Now P (Qcvm.proceed V a r) := by
  unfold Qcvm.proceed
  dsimp only
  split
  next => exact U.mark _ h
  next => exact h
  next => exact h
  next => exact U.reload h _ _ _
  next => exact h
  next => exact U.mark _ h

lemma execute {a : At} (h : P a.core) : Now P (Qcvm.execute F V trace exitDepth a) := by
  unfold Qcvm.execute
  split
  next => exact U.mark _ h
  next st _ =>
    have ran := U.arm (a.site V st) (statement F (a.site V st) exitDepth) h
    dsimp only
    split
    next => exact U.mark _ ran
    next => exact ran
    next => exact U.mark _ ran
    next after _ =>
      unfold charge
      dsimp only
      split
      next => exact U.traced trace (U.mark _ ran)
      next => exact U.proceed _ (U.arm _ after ran)

/-- So does every statement. -/
lemma step {a : At} (h : P a.core) : Now P (Qcvm.step F V trace exitDepth a) := by
  unfold Qcvm.step
  split
  next => exact U.traced true (U.mark _ h)
  next =>
    refine U.execute ?_
    dsimp only
    split
    next => exact U.traced false h
    next => exact h

/-- And every run. -/
theorem run {core : Core} (h : P core) (budget : Nat) :
    P (Qcvm.run F V trace exitDepth core budget).core := by
  have holds : Now P (Status.runFor (Qcvm.step F V trace exitDepth) (runBound core budget)
      (Qcvm.start V core budget)) := Status.runFor_holds (fun _ => U.step) _ (U.start h budget)
  unfold Qcvm.run
  split
  next stop e =>
    rw [e] at holds
    exact holds
  next a e =>
    rw [e] at holds
    exact holds

end Core.Upheld

end Qcvm

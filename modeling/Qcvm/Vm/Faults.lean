import Qcvm.Interp.Faults
import Qcvm.Vm.Windows

/-!
# Faults of QuakeC

When the interpreter loop of a reachable system stops with a fault, the registers and the backtrace
name the statement that raised it, the error is one of its opcode, and the statement has changed
nothing, unless it is a call (`faults_atomic`). The loop itself raises no errors of its own: progs it
goes on in are loaded and in the view.
-/

namespace Qcvm

open Lib

/-- A spot in the statements of a loaded progs. -/
structure Spot.Housed (progs : List ProgsState) (s : Spot) : Prop extends s.InCode progs where
  loaded : ∃ ps, progs[s.prnum]? = some ps

lemma spotRule_housed : SpotRule fun progs s => s.Housed progs where
  reset h := ⟨spotRule_inCode.reset h.toInCode, h.loaded⟩
  entry l small found :=
    ⟨spotRule_inCode.entry l small found, _, (code_entry l small found).1⟩
  goes pc cached lt h := ⟨spotRule_inCode.goes pc cached lt h.toInCode, h.loaded⟩
  switches ref mem named h := ⟨spotRule_inCode.switches ref mem named h.toInCode, h.loaded⟩
  below fits h := spotRule_inCode.below fits h.toInCode

lemma spotsGrow_housed : SpotsGrow fun progs s => s.Housed progs := by
  intro progs ps names s h
  obtain ⟨q, here⟩ := h.loaded
  refine ⟨spotsGrow_inCode h.toInCode, q.share names, ?_⟩
  rw [List.getElem?_map, List.getElem?_append_left (List.getElem?_eq_some_iff.mp here).1, here]
  rfl

section Loop

variable {F : FloatOps} {V : View} {trace : Bool} {exitDepth : Nat} {core core' : Core}

/-- A reload stops only where the progs is not loaded. -/
lemma reload_done (runs : core.Runs V) {cached : Arr Stmt} (loaded : ∃ ps ∈ core.progs, cached = ps.code)
    {budget cachedPr : Nat} {stop : Stop} (e : reload V core budget cachedPr cached = .done stop) :
    stop.core = core ∧ core.progs[core.x.prnum]? = none := by
  have codes : V.CoversCodes core cached := by
    cases V with
    | whole => exact ⟨rfl, fun _ _ => rfl⟩
    | window => exact coversCodes runs loaded
  have covers : V.covers core.mem.s = true := by
    cases V with
    | whole => rfl
    | window => exact (Bool.and_eq_true_iff.mp (runs.fits rfl)).1
  unfold reload at e
  dsimp only at e
  split at e
  next none =>
    cases e
    exact ⟨rfl, none⟩
  next ps here =>
    have covered : V.coversCode (if cachedPr ≠ core.x.prnum then ps.code else cached) = true := by
      split
      next => exact codes.progs ps (List.mem_of_getElem? here)
      next => exact codes.cached
    rw [covered, covers] at e
    cases e

/-- A call is charged before it does anything. -/
lemma statement_call {site : Site} (call : site.st.op.callArgc.isSome = true) :
    statement F site exitDepth = .pure (.charge (.dispatch site)) := by
  unfold statement
  generalize site.st.op = op at call
  cases op <;> first
    | rfl
    | cases call

/-- What a fault of the statement at `a` leaves: a call has passed its arguments in globals, and every
other statement has done nothing but store the loop's `pc`. -/
structure At.Faulted (a : At) (st : Stmt) (kind : ErrorKind) (core : Core) : Prop where
  own : st.op.raises kind = true
  passed : ∃ m argc, a.core.mem.OnlyS m ∧ core = { a.core.markPc a.pc with mem := m, argc := argc } ∧
    (st.op.isHexen2Call = false → a.core.progs.length ≤ 1 → m = a.core.mem)
  atomic : st.op.callArgc = none → core = a.core.markPc a.pc

/-- What is left of a statement fails only in a call. -/
lemma Site.fails_charged {site : Site} {after : Arm After} (charged : site.Charged exitDepth after)
    {kind : ErrorKind} (e : after.run (site.handle F) core = (.error kind, core')) :
    site.st.op.callArgc.isSome = true ∧ site.Refuses core kind core' := by
  have total (t : after.Total) : False := by
    obtain ⟨v, ended⟩ := t.run (site.handle F) core
    rw [e] at ended
    cases ended
  cases charged with
  | next => exact absurd trivial total
  | goto => exact absurd trivial total
  | leave => exact absurd (fun _ _ _ _ _ _ _ => trivial) total
  | dispatch call => exact ⟨call, fails_dispatch call core kind core' e⟩

lemma execute_fault {a : At} (runs : a.core.Runs V) (l : a.core.mem.Regions) (loaded : a.Loaded)
    (prnum : a.core.x.prnum = a.loc.prnum)
    (aimed : a.Aimed (fun progs spot => spot.Housed progs) exitDepth) {st : Stmt}
    (found : V.stmtAt a.loc.code a.pc = some st) {kind : ErrorKind} {budget : Nat}
    (e : execute F V trace exitDepth a = .done ⟨.fault kind, core, budget⟩) :
    a.Faulted st kind core := by
  have stopped := @aimedAt_execute _ spotRule_housed F V trace exitDepth a runs l loaded prnum aimed
  rw [e] at stopped
  have spotted := (stopped.resolve_right fun returned => by cases returned.1).2
  obtain ⟨ps, here⟩ : ∃ ps, core.progs[core.x.prnum]? = some ps := spotted.x.loaded
  have moved := (a.site V st).run_moved l F (statement F (a.site V st) exitDepth)
  have placed : (statement F (a.site V st) exitDepth).All (a.site V st).Placed
    ((a.site V st).Ends exitDepth) := placed_statement
  unfold execute at e
  rw [found] at e
  dsimp only at e
  rcases ran : (statement F (a.site V st) exitDepth).run ((a.site V st).handle F) a.core
    with ⟨kind' | outcome, mid⟩
  · rw [ran] at e
    cases e
    obtain ⟨own, left⟩ := Site.atomic_statement a.core _ _ ran
    exact ⟨own, ⟨a.core.mem, a.core.argc, .refl _, left, fun _ _ => rfl⟩, fun _ => left⟩
  · rw [ran] at e moved
    cases outcome with
    | next => cases e
    | stateOp op => cases e
    | charge after =>
      have charged := (Prog.run_value placed (congrArg Prod.fst ran)).2
      dsimp only at e
      unfold charge at e
      dsimp only at e
      split at e
      next => cases e
      next =>
        change proceed V _ (after.run ((a.site V st).handle F) mid) = _ at e
        rcases paid : after.run ((a.site V st).handle F) mid with ⟨kind' | what, last⟩
        · obtain ⟨call, own, m, argc, only, left, still⟩ := Site.fails_charged charged paid
          rw [statement_call call] at ran
          cases ran
          rw [paid] at e
          cases e
          have args : st.op.callArgc.isSome = true := call
          refine ⟨own, ⟨m, argc, only, left, still⟩, fun other => ?_⟩
          rw [other] at args
          cases args
        · rw [paid] at e
          cases what with
          | next => cases e
          | goto target => cases e
          | returned => cases e
          | builtin slot func => cases e
          | reload =>
            have went := (a.site V st).run_moved (moved.regions l) F after
            rw [paid] at went
            have runs : last.Runs V := runs.plain (moved.plain.trans went.plain)
            have progs : last.progs = a.core.progs :=
              congrArg Core.Fixed.progs (moved.trans went).fixed
            have cached : ∃ ps ∈ last.progs, a.loc.code = ps.code := by
              rw [progs]
              exact loaded.loaded
            obtain ⟨rfl, none⟩ := reload_done runs cached e
            cases here.symm.trans none

end Loop

/-- A fault is the fault of the statement the registers name when the loop stops, and of its opcode.
But for the arguments of a call, it leaves everything as it was before the statement. -/
theorem faults_atomic {F : FloatOps} {s : Sys} (r : s.ReachableBy F Sys.SuspendsOwn) {view : View}
    {exitDepth : Nat} {a : At} (e : s.Executes F view exitDepth a) (other : a.loc.prnum ≠ 255)
    {trace : Bool} {kind : ErrorKind} {core : Core} {budget : Nat}
    (fault : step F view trace exitDepth a = .done ⟨.fault kind, core, budget⟩) :
    ∃ ps st, a.core.progs[core.x.prnum]? = some ps ∧ core.x.pc < ps.code.size ∧
      ps.code.get core.x.pc = st ∧ core.backtrace = (a.core.markPc a.pc).backtrace ∧
      At.Faulted { a with core := a.executing trace } st kind core := by
  have aimed := r.aimed spotRule_housed spotsGrow_housed fun _ _ own => .inr own
  obtain ⟨-, runs, regions, loaded, here, spotted⟩ := aimed.going spotRule_housed r.reachable.base e
  obtain ⟨ps, own, lt⟩ := spotted.x.own fun last => other (here.symm.trans last)
  have own : a.core.progs[a.core.x.prnum]? = some ps := own
  have lt : a.pc < ps.code.size := lt
  have code := loaded.own other ps (here ▸ own)
  have index : view.index a.pc = a.pc := by
    cases view with
    | whole => rfl
    | window => exact Nat.mod_eq_of_lt (spotRule_housed.below (runs.fits rfl) spotted.x)
  have found : view.stmtAt a.loc.code a.pc = some (ps.code.get a.pc) := by
    rw [stmtAt_eq, index, code]
    exact Arr.get?_eq_some.mpr ⟨lt, rfl⟩
  have faulted : At.Faulted { a with core := a.executing trace } (ps.code.get a.pc) kind core := by
    unfold step at fault
    split at fault
    next => cases fault
    next =>
      unfold At.executing
      cases trace with
      | false => exact execute_fault runs regions loaded here spotted found fault
      | true =>
        have cleared : a.core.Plain (a.core.flagged false) := ⟨rfl, rfl, rfl, rfl⟩
        exact execute_fault (a := ⟨a.core.flagged false, a.loc, a.pc, a.budget⟩) (runs.plain cleared)
          regions (loaded.of_eq rfl rfl) here spotted found fault
  obtain ⟨m, argc, -, left, -⟩ := faulted.passed
  refine ⟨ps, _, ?_, ?_, ?_, ?_, faulted⟩
  · rw [left]
    cases trace <;> exact own
  · rw [left]
    exact lt
  · rw [left]
    rfl
  · rw [left]
    cases trace <;> rfl

/-- The loop starts where the registers are. -/
lemma Sys.executes_first {F : FloatOps} {s : Sys} {p : Pending} {rest : List Pending} {a : At}
    (here : s.stack = p :: rest) (doing : p.doing = .interpreting) (trace : s.vm.core.trace = false)
    (traced : s.vm.core.traced = false) (first : s.first s.vm.view = some a) :
    s.Executes F s.vm.view p.exitDepth a := by
  have fresh : s.vm.fresh = s.vm.core := by
    unfold Vm.fresh
    rw [if_neg (by rw [trace]; decide), ← traced]
  refine ⟨p, rest, s.vm, s.vm.budget, 0, here, doing, rfl, .here _, rfl, ?_⟩
  rw [fresh, Sys.start_of_first first]
  rfl

/-- The error the loop faults with. -/
def Status.fault : Status At Stop → Option ErrorKind
  | .done ⟨.fault kind, _, _⟩ => some kind
  | _ => none

lemma Status.eq_of_fault {st : Status At Stop} {kind : ErrorKind} (e : Status.fault st = some kind) :
    ∃ core budget, st = .done ⟨.fault kind, core, budget⟩ := by
  unfold fault at e
  split at e
  next =>
    cases e
    exact ⟨_, _, rfl⟩
  next => cases e

/-- A function that stores through a null pointer. -/
def Asm.nullStore : Asm where
  statements := [⟨0, 0, 0, 0, none⟩, ⟨37, 28, 29, 0, none⟩, ⟨0, 0, 0, 0, none⟩]
  functions := [⟨0, 0, 0, 0, 0, 0, []⟩, ⟨1, 0, 0, 0, 0, 0, []⟩]
  globals := List.replicate 28 0 ++ [7, 0]
  strings := [0]

theorem faults_atomic_nullStore : ∃ (s : Sys) (a : At) (st : Stmt) (core : Core) (budget : Nat),
    step .onZero s.vm.view false 0 a = .done ⟨.fault .nullPointerWrite, core, budget⟩ ∧
    At.Faulted { a with core := a.executing false } st .nullPointerWrite core := by
  have test : (Asm.nullStore.boot .none .menu).any (fun vm =>
      (vm.start.actsIdleReset .onZero callFirst).any fun s => !s.vm.core.trace && !s.vm.core.traced &&
        s.stack.head?.any (fun p => decide (p.doing = .interpreting) && decide (p.exitDepth = 0)) &&
        (s.first s.vm.view).any fun a => decide (a.loc.prnum = 0) &&
          decide (Status.fault (step .onZero s.vm.view false 0 a) = some .nullPointerWrite)) = true := by
    decide +kernel
  obtain ⟨vm, boot, test⟩ := (Option.any_eq_true _ _).mp test
  obtain ⟨s, acts, test⟩ := (Option.any_eq_true _ _).mp test
  simp only [Bool.and_eq_true, Bool.not_eq_true'] at test
  obtain ⟨⟨⟨trace, traced⟩, called⟩, test⟩ := test
  obtain ⟨p, innermost, called⟩ := (Option.any_eq_true _ _).mp called
  obtain ⟨rest, here⟩ := List.head?_eq_some_iff.mp innermost
  obtain ⟨doing, depth⟩ := Bool.and_eq_true_iff.mp called
  obtain ⟨a, first, test⟩ := (Option.any_eq_true _ _).mp test
  obtain ⟨main, failed⟩ := Bool.and_eq_true_iff.mp test
  obtain ⟨loaded, load, new⟩ := new_of_boot boot
  have along : vm.start.Along .onZero Sys.SuspendsOwn callFirst := ⟨nofun, fun _ _ => trivial⟩
  have r : s.ReachableBy .onZero Sys.SuspendsOwn := ⟨loaded, .none, .menu, vm, callFirst, new, along, acts⟩
  have e : s.Executes .onZero s.vm.view p.exitDepth a :=
    Sys.executes_first here (of_decide_eq_true doing) trace traced first
  rw [show p.exitDepth = 0 from of_decide_eq_true depth] at e
  have main : a.loc.prnum = 0 := of_decide_eq_true main
  obtain ⟨core, budget, fault⟩ := Status.eq_of_fault (of_decide_eq_true failed)
  obtain ⟨ps, st, -, -, -, -, faulted⟩ := faults_atomic r e (by omega) fault
  exact ⟨s, a, st, core, budget, fault, faulted⟩

end Qcvm

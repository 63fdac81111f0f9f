import Qcvm.Interp.Alike
import Qcvm.Vm.Bounded
import Qcvm.Vm.Operands

/-!
# Statements that find the budget spent

A statement that finds the budget spent stops the loop where it is and is executed again from the
start with the next budget. Runs with budgets a constant apart go on alike until the smaller one is
spent (`cut_runFor`), and executing the statement again comes to the same unless its part before the
charge has warned (`Site.again_statement`).
-/

namespace Qcvm

open Lib

/-! ## Budgets a constant apart -/

/-- The loop with more budget. -/
def At.plus (a : At) (more : Nat) : At := { a with budget := a.budget + more }

/-- The same stop with more budget left. -/
def Stop.plus (stop : Stop) (more : Nat) : Stop := { stop with budget := stop.budget + more }

/-- The loop, or its stop, with more budget. -/
def plus (more : Nat) : Status At Stop → Status At Stop
  | .running a => .running (a.plus more)
  | .done stop => .done (stop.plus more)

/-- The statement at `a` is counted, and the loop stops there because its budget is spent. -/
structure At.Spent (F : FloatOps) (V : View) (trace : Bool) (exitDepth : Nat) (a : At) : Prop where
  traced : trace = true → a.core.traced = true
  last : a.budget ≤ 1
  counted : ∃ st after, V.stmtAt a.loc.code a.pc = some st ∧
    ((statement F (a.site V st) exitDepth).run ((a.site V st).handle F) (a.executing trace)).1
      = .ok (.charge after)

section Plus

variable {F : FloatOps} {V : View} {trace : Bool} {exitDepth : Nat} {a : At} {core : Core}
variable {more : Nat}

/-- Reloading the registers does not depend on the budget. -/
lemma plus_reload (budget cachedPr : Nat) (cached : Arr Stmt) :
    reload V core (budget + more) cachedPr cached
      = plus more (reload V core budget cachedPr cached) := by
  unfold reload
  dsimp only
  split
  next => rfl
  next ps _ =>
    generalize (if cachedPr ≠ core.x.prnum then ps.code else cached) = code
    split
    next => rfl
    next => split <;> rfl

/-- The start of a run does not depend on the budget. -/
lemma plus_start (budget : Nat) :
    start V core (budget + more) = plus more (start V core budget) := by
  unfold start
  split
  next => rfl
  next => exact plus_reload _ _ _

/-- Going on after a statement does not depend on the budget. -/
lemma plus_proceed (r : Except ErrorKind After × Core) :
    proceed V (a.plus more) r = plus more (proceed V a r) := by
  unfold proceed
  dsimp only
  split
  next => rfl
  next => rfl
  next => rfl
  next => exact plus_reload _ _ _
  next => rfl
  next => rfl

/-- A charge does not depend on the budget, while it is not the last. -/
lemma plus_charge {st : Stmt} {after : Arm After} (enough : 1 < a.budget) :
    charge F V trace (a.plus more) st after = plus more (charge F V trace a st after) := by
  have less : a.budget + more - 1 = a.budget - 1 + more := by omega
  unfold charge
  rw [show (a.plus more).budget = a.budget + more from rfl, less]
  dsimp only
  rw [if_neg (by omega), if_neg (by omega)]
  exact plus_proceed (a := ⟨a.core, a.loc, a.pc, a.budget - 1⟩) _

/-- A statement that does not find the budget spent does not depend on it. -/
lemma plus_execute (enough : ∀ st after, V.stmtAt a.loc.code a.pc = some st →
      ((statement F (a.site V st) exitDepth).run ((a.site V st).handle F) a.core).1
        = .ok (.charge after) → 1 < a.budget) :
    execute F V trace exitDepth (a.plus more) = plus more (execute F V trace exitDepth a) := by
  unfold execute
  rw [show (a.plus more).loc = a.loc from rfl, show (a.plus more).pc = a.pc from rfl,
    show (a.plus more).core = a.core from rfl]
  split
  next => rfl
  next st found =>
    have enough := fun after => enough st after found
    dsimp only
    rw [show (a.plus more).site V st = a.site V st from rfl]
    generalize (statement F (a.site V st) exitDepth).run ((a.site V st).handle F) a.core = r
      at enough ⊢
    split
    next => rfl
    next => rfl
    next => rfl
    next after e => exact plus_charge (a := { a with core := r.2 }) (enough after e)

/-- A step does not depend on the budget, unless it spends it. -/
lemma plus_step (enough : ¬ a.Spent F V trace exitDepth) :
    step F V trace exitDepth (a.plus more) = plus more (step F V trace exitDepth a) := by
  unfold step
  rw [show (a.plus more).core = a.core from rfl]
  split
  next => rfl
  next traced =>
    refine plus_execute (a := { a with core := a.executing trace }) fun st after found charged => ?_
    by_contra last
    refine enough ⟨fun on => ?_, Nat.le_of_not_lt last, st, after, found, charged⟩
    simpa [on] using traced

/-- A statement that charges is what it charges for. -/
lemma execute_of_charge {st : Stmt} {after : Arm After} (found : V.stmtAt a.loc.code a.pc = some st)
    (charged : (statement F (a.site V st) exitDepth).run ((a.site V st).handle F) a.core
      = (.ok (.charge after), core)) :
    execute F V trace exitDepth a = charge F V trace { a with core := core } st after := by
  unfold execute
  simp only [found, charged]

/-- A step executes its statement, if it has been reported. -/
lemma step_of_traced (traced : trace = true → a.core.traced = true) :
    step F V trace exitDepth a
      = execute F V trace exitDepth { a with core := a.executing trace } := by
  unfold step
  refine if_neg fun e => ?_
  rw [Bool.and_eq_true, Bool.not_eq_true'] at e
  exact absurd (traced e.1) (ne_true_of_eq_false e.2)

/-- A statement that finds the budget spent stops the loop where it is. -/
lemma At.Spent.step (h : a.Spent F V trace exitDepth) : ∃ st after core,
    V.stmtAt a.loc.code a.pc = some st ∧
    (statement F (a.site V st) exitDepth).run ((a.site V st).handle F) (a.executing trace)
      = (.ok (.charge after), core) ∧
    Qcvm.step F V trace exitDepth a = .done ⟨.budget, (core.markPc a.pc).flagged trace, 0⟩ := by
  obtain ⟨st, after, found, charged⟩ := h.counted
  have spent : a.budget - 1 = 0 := by
    have := h.last
    omega
  refine ⟨st, after, _, found, Prod.ext charged rfl, ?_⟩
  rw [step_of_traced h.traced, execute_of_charge (a := { a with core := a.executing trace }) found
    (Prod.ext charged rfl)]
  unfold charge
  dsimp only
  rw [if_pos spent, spent]
  rfl

/-- Reloading the registers does not end a run by the budget. -/
lemma exit_reload (budget cachedPr : Nat) (cached : Arr Stmt) :
    (reload V core budget cachedPr cached).Holds (fun _ => True)
      fun stop => stop.exit ≠ .budget := by
  unfold reload
  dsimp only
  split
  next => exact nofun
  next ps _ =>
    generalize (if cachedPr ≠ core.x.prnum then ps.code else cached) = code
    split
    next => exact nofun
    next =>
      split
      next => exact nofun
      next => trivial

/-- The start of a run does not end it by the budget. -/
lemma exit_start (budget : Nat) :
    (start V core budget).Holds (fun _ => True) fun stop => stop.exit ≠ .budget := by
  unfold start
  split
  next => exact nofun
  next => exact exit_reload _ _ _

/-- Going on after a statement does not end a run by the budget. -/
lemma exit_proceed (r : Except ErrorKind After × Core) :
    (proceed V a r).Holds (fun _ => True) fun stop => stop.exit ≠ .budget := by
  unfold proceed
  dsimp only
  split
  next => exact nofun
  next => trivial
  next => trivial
  next => exact exit_reload _ _ _
  next => exact nofun
  next => exact nofun

/-- Nothing else stops the loop for its budget. -/
lemma exit_step (enough : ¬ a.Spent F V trace exitDepth) :
    (step F V trace exitDepth a).Holds (fun _ => True) fun stop => stop.exit ≠ .budget := by
  by_cases traced : trace = true → a.core.traced = true
  · rw [step_of_traced traced]
    unfold execute
    split
    next => exact nofun
    next st found =>
      dsimp only
      split
      next => exact nofun
      next => trivial
      next => exact nofun
      next after charged =>
        have enough : ¬ a.budget ≤ 1 := fun last => enough ⟨traced, last, st, after, found, charged⟩
        unfold charge
        dsimp only
        rw [if_neg (by omega)]
        exact exit_proceed _
  · unfold step
    rw [Classical.not_imp] at traced
    rw [if_pos (by rw [traced.1, eq_false_of_ne_true traced.2]; rfl)]
    exact nofun

/-- With more budget a run goes on alike up to the statement that finds the smaller one spent. -/
lemma cut_runFor (n : Nat) {st : Status At Stop}
    (other : st.Holds (fun _ => True) fun stop => stop.exit ≠ .budget) :
    (Status.runFor (step F V trace exitDepth) n (plus more st)
        = plus more (Status.runFor (step F V trace exitDepth) n st) ∧
      (Status.runFor (step F V trace exitDepth) n st).Holds (fun _ => True)
        fun stop => stop.exit ≠ .budget) ∨
    ∃ m a, m < n ∧ Status.runFor (step F V trace exitDepth) m st = .running a ∧
      a.Spent F V trace exitDepth ∧
      Status.runFor (step F V trace exitDepth) m (plus more st) = .running (a.plus more) := by
  induction n generalizing st with
  | zero => exact .inl ⟨by simp only [Status.runFor_zero], by simpa using other⟩
  | succ n ih =>
    cases st with
    | done stop => exact .inl ⟨rfl, other⟩
    | running a =>
      by_cases spent : a.Spent F V trace exitDepth
      · exact .inr ⟨0, a, Nat.zero_lt_succ n, rfl, spent, rfl⟩
      · have on : step F V trace exitDepth (a.plus more) = plus more (step F V trace exitDepth a) :=
          plus_step spent
        have rest := ih (exit_step spent)
        rw [← on] at rest
        rcases rest with same | ⟨m, b, lt, here, spent, there⟩
        · exact .inl same
        · exact .inr ⟨m + 1, b, Nat.succ_lt_succ lt, here, spent, there⟩

end Plus

/-! ## A statement executed again -/

/-- Whether `strings_equal` warns: a string it looks up resolves to nothing. -/
def Core.warnsEqual (core : Core) (a b : Word) : Bool :=
  a != b && ((a != 0 && (core.strBytes a).isNone) || (b != 0 && (core.strBytes b).isNone))

/-- Reading a good string changes nothing. -/
lemma Core.strOrWarn_of_some {core : Core} {r : Word} (some : (core.strBytes r).isNone = false) :
    (core.strOrWarn r).2 = core := by
  unfold strOrWarn
  cases e : core.strBytes r with
  | none =>
    rw [e] at some
    cases some
  | some text => rfl

/-- A test of good strings for equality changes nothing. -/
lemma Core.stringsEqual_quiet {core : Core} {a b : Word} (quiet : core.warnsEqual a b = false) :
    (core.stringsEqual a b).2 = core := by
  unfold stringsEqual
  by_cases same : a = b
  · rw [if_pos same]
  · unfold warnsEqual at quiet
    rw [bne_iff_ne.mpr same, Bool.true_and, Bool.or_eq_false_iff, Bool.and_eq_false_iff,
      Bool.and_eq_false_iff, bne_eq_false_iff_eq, bne_eq_false_iff_eq] at quiet
    obtain ⟨quietA, quietB⟩ := quiet
    rw [if_neg same]
    by_cases nullA : a = 0
    · have other : ¬ b = 0 := fun nullB => same (nullA.trans nullB.symm)
      rw [if_pos (.inl nullA), if_pos nullA]
      exact strOrWarn_of_some (quietB.resolve_left other)
    · by_cases nullB : b = 0
      · rw [if_pos (.inr nullB), if_neg nullA]
        exact strOrWarn_of_some (quietA.resolve_left nullA)
      · rw [if_neg (not_or.mpr ⟨nullA, nullB⟩)]
        dsimp only
        rw [strOrWarn_of_some (quietA.resolve_left nullA),
          strOrWarn_of_some (quietB.resolve_left nullB)]

/-- Operations that change nothing. -/
def Micro.Reads : Micro → Prop
  | .get .. | .memGet .. | .getGlobal .. | .getRef .. | .look => True
  | _ => False

namespace Site

variable {site : Site} {F : FloatOps} {exitDepth : Nat} {core core' : Core} {after : Arm After}

/-- An arm that only reads changes nothing. -/
lemma run_reads {α : Type} {p : Arm α} {Q : α → Prop} (reads : p.All Micro.Reads Q) (core : Core) :
    (p.run (site.handle F) core).2 = core := by
  refine Prog.run_preserves (I := fun c => c = core) reads ?_ rfl
  rintro f _ reads rfl
  cases f with
  | get | memGet | getGlobal | getRef | look => rfl
  | _ => exact reads.elim

/-- A case only reads, unless it compares strings. -/
lemma reads_caseHit {kind : SwitchKind} (other : kind ≠ .string) :
    (Arm.caseHit F kind).All Micro.Reads fun _ => True := by
  cases kind with
  | string => exact absurd rfl other
  | float | vector | int => simp [Arm.caseHit, Arm.getRef, Arm.get, Arm.getV, Micro.Reads]

/-- A case range only reads. -/
lemma reads_caseRangeHit (kind : SwitchKind) :
    (Arm.caseRangeHit F kind).All Micro.Reads fun _ => True := by
  cases kind with
  | string => trivial
  | float | vector | int => simp [Arm.caseRangeHit, Arm.getRef, Arm.get, Arm.getV, Micro.Reads]

/-- The opcodes that decide what runs next only read, apart from those of a switch. -/
lemma reads_controlArm (op : Op) :
    (controlArm F site exitDepth op).All Micro.Reads (fun _ => True) ∨
    (∃ kind, controlArm F site exitDepth op = .switch site kind) ∨ op = .case := by
  cases op
  case ifI | ifS | ifNotI | ifNotS | ifF | ifNotF =>
    exact .inl (by simp [controlArm, Arm.branch, Arm.get, Micro.Reads])
  case state | thinkTime | cState | cWState =>
    exact .inl (by simp [controlArm, Arm.get, Arm.look, Micro.Reads])
  case switchF | switchV | switchS | switchE | switchFnc | switchI => exact .inr (.inl ⟨_, rfl⟩)
  case case => exact .inr (.inr rfl)
  case caseRange =>
    exact .inl ⟨trivial, fun core => (reads_caseRangeHit _).bind fun _ _ => trivial⟩
  all_goals exact .inl trivial

/-- What a counted statement does before the charge: it only reads, or it sets the operand of a
switch, or it compares strings. -/
lemma before_charge
    (charged : (statement F site exitDepth).run (site.handle F) core = (.ok (.charge after), core'))
    (quiet : site.st.op = .case → core.x.switchKind = .string →
      core.warnsEqual (site.view.g core.mem.s core.x.switchRef)
        (site.view.g core.mem.s site.st.a) = false) :
    core.Alike Eq core' ∨ ∃ kind, statement F site exitDepth = .switch site kind := by
  unfold statement at charged ⊢
  dsimp only at charged ⊢
  cases arm : (operandArm F site site.st.op).or (memoryArm F site site.st.op) with
  | some p =>
    rw [arm] at charged
    dsimp only at charged
    unfold Arm.falls at charged
    rw [Prog.bind_eq, Prog.run_bind] at charged
    split at charged
    next => cases charged
    next => cases charged
  | none =>
    rw [arm] at charged
    dsimp only at charged ⊢
    rcases @reads_controlArm site F exitDepth site.st.op with reads | switch | case
    · have same := @run_reads site F _ _ _ reads core
      rw [charged] at same
      rw [show core' = core from same]
      exact .inl (Core.Twin.alike (.refl core))
    · exact .inr switch
    · have hit : (controlArm F site exitDepth .case).run (site.handle F) core
          = ((Arm.caseHit F core.x.switchKind).bind fun hit =>
            .pure (if hit then .charge (.pure (.goto site.st.b)) else .next)).run (site.handle F)
              core := rfl
      have compared : core.Alike Eq
          ((Arm.caseHit F core.x.switchKind).run (site.handle F) core).2 := by
        by_cases strings : core.x.switchKind = .string
        · have same : ((core.markPc site.pc).stringsEqual (site.view.g core.mem.s core.x.switchRef)
              (site.view.g core.mem.s site.st.a)).2 = core.markPc site.pc :=
            Core.stringsEqual_quiet (quiet case strings)
          rw [strings]
          exact ⟨site.pc, core.traced, rfl, same⟩
        · rw [run_reads (reads_caseHit strings) core]
          exact Core.Twin.alike (.refl core)
      rw [case, hit, Prog.run_bind] at charged
      split at charged
      next =>
        rw [← (Prod.mk.inj charged).2]
        exact .inl compared
      next => cases charged

/-- Executed again, a counted statement comes to its charge alike. -/
lemma again_statement
    (charged : (statement F site exitDepth).run (site.handle F) core = (.ok (.charge after), core'))
    (quiet : site.st.op = .case → core.x.switchKind = .string →
      core.warnsEqual (site.view.g core.mem.s core.x.switchRef)
        (site.view.g core.mem.s site.st.a) = false)
    {again : Core} (h : core'.Alike Eq again) :
    ((statement F site exitDepth).run (site.handle F) again).1 = .ok (.charge after) ∧
      core'.Alike Eq ((statement F site exitDepth).run (site.handle F) again).2 := by
  rcases before_charge charged quiet with alike | ⟨kind, switch⟩
  · obtain ⟨value, rest⟩ := site.alike_run F (statement F site exitDepth) (alike.trans h)
    rw [charged] at value rest
    exact ⟨value.symm, rest⟩
  · rw [switch] at charged ⊢
    cases charged
    obtain ⟨pc, traced, flag, rfl⟩ := h
    exact ⟨rfl, pc, traced, flag, rfl⟩

end Site

end Qcvm

import Qcvm.Interp.Spent

/-!
# Budgets in chunks

The loop around the interpreter may hand out the budget in chunks, to look at the time between them.
A run that ends for its budget and goes on with what is left comes to the same as a run with all of
it (`run_cut`); so chunks are not observable, unless one ends at a statement that warns each time it
is executed or in progs 255, which the loop takes for the first progs when it starts.
-/

namespace Qcvm

open Lib

/-! ## A chunk and the next -/

/-- The statement at `a` may be executed again from the start: it does not warn, and the loop takes
the same statements when it starts anew. -/
structure At.Repeats (V : View) (a : At) : Prop where
  quiet : ∀ st, V.stmtAt a.loc.code a.pc = some st → st.op = .case →
    a.core.x.switchKind = .string → a.core.warnsEqual
      (V.g a.core.mem.s a.core.x.switchRef) (V.g a.core.mem.s st.a) = false
  own : a.loc.prnum = 255 → ∀ ps, a.core.progs.head? = some ps → a.loc.code = ps.code

/-- A run with a budget ends at `a` because the budget is spent. -/
def EndsAt (F : FloatOps) (V : View) (trace : Bool) (exitDepth : Nat) (core : Core) (budget : Nat)
    (a : At) : Prop :=
  a.Spent F V trace exitDepth ∧
    ∃ n, Status.runFor (step F V trace exitDepth) n (start V core budget) = .running a

/-- What the loop keeps in a run with a budget: it moves, its variables are up to date, and it does
not go on with a spent budget. -/
structure At.Within (core : Core) (trace : Bool) (budget : Nat) (a : At) : Prop where
  moved : core.Moved a.core
  loaded : a.Loaded
  here : a.core.x.prnum = a.loc.prnum
  flag : trace = false → a.core.traced = false
  le : a.budget ≤ budget
  some : a.budget = 0 → budget = 0

section Again

variable {F : FloatOps} {V : View} {trace : Bool} {exitDepth : Nat} {core : Core} {a : At}

/-- A statement keeps the traced flag. -/
lemma traced_run {α : Type} (site : Site) (p : Arm α) (core : Core) :
    (p.run (site.handle F) core).2.traced = core.traced :=
  Prog.run_preserves (I := fun c : Core => c.traced = core.traced) p.all_true
    (fun f c _ h => (site.traced_handle F f c).trans h) rfl

/-- Reloading the registers keeps the traced flag and the budget. -/
lemma kept_reload (budget cachedPr : Nat) (cached : Arr Stmt) :
    (reload V core budget cachedPr cached).Holds
      (fun b => b.core.traced = core.traced ∧ b.budget = budget) fun _ => True := by
  unfold reload
  dsimp only
  split
  next => trivial
  next ps _ =>
    generalize (if cachedPr ≠ core.x.prnum then ps.code else cached) = code
    split
    next => trivial
    next =>
      split
      next => trivial
      next => exact ⟨rfl, rfl⟩

/-- The start of a run keeps the traced flag and the budget. -/
lemma kept_start (budget : Nat) : (start V core budget).Holds
    (fun b => b.core.traced = core.traced ∧ b.budget = budget) fun _ => True := by
  unfold start
  split
  next => trivial
  next => exact kept_reload _ _ _

/-- Going on after a statement keeps the traced flag and the budget. -/
lemma kept_proceed (r : Except ErrorKind After × Core) : (proceed V a r).Holds
    (fun b => b.core.traced = r.2.traced ∧ b.budget = a.budget) fun _ => True := by
  unfold proceed
  dsimp only
  split
  next => trivial
  next => exact ⟨rfl, rfl⟩
  next => exact ⟨rfl, rfl⟩
  next => exact kept_reload _ _ _
  next => trivial
  next => trivial

/-- A statement that does not end the run takes at most one count of the budget, and leaves some. -/
lemma kept_execute : (execute F V trace exitDepth a).Holds (fun b => b.core.traced = a.core.traced ∧
    (b.budget = a.budget ∨ b.budget < a.budget ∧ b.budget ≠ 0)) fun _ => True := by
  unfold execute
  split
  next => trivial
  next st _ =>
    dsimp only
    have flag := traced_run (F := F) (a.site V st) (statement F (a.site V st) exitDepth) a.core
    generalize (statement F (a.site V st) exitDepth).run ((a.site V st).handle F) a.core = r
      at flag ⊢
    split
    next => trivial
    next => exact ⟨flag, .inl rfl⟩
    next => trivial
    next after _ =>
      unfold charge
      dsimp only
      split
      next => trivial
      next some =>
        have paid := traced_run (F := F) (a.site V st) after r.2
        have kept := @kept_proceed V ⟨r.2, a.loc, a.pc, a.budget - 1⟩
          (after.run ((a.site V st).handle F) r.2)
        change (proceed V ⟨r.2, a.loc, a.pc, a.budget - 1⟩
          (after.run ((a.site V st).handle F) r.2)).Holds _ _
        cases e : proceed V ⟨r.2, a.loc, a.pc, a.budget - 1⟩
            (after.run ((a.site V st).handle F) r.2) with
        | done => trivial
        | running b =>
          rw [e] at kept
          obtain ⟨same, left⟩ := kept
          refine ⟨(same.trans paid).trans flag, .inr ?_⟩
          dsimp only at left
          omega

/-- A step keeps the traced flag with tracing off, and the budget or takes from it. -/
lemma kept_step : (step F V trace exitDepth a).Holds (fun b =>
    (trace = false → b.core.traced = a.core.traced) ∧
      (b.budget = a.budget ∨ b.budget < a.budget ∧ b.budget ≠ 0)) fun _ => True := by
  by_cases traced : trace = true → a.core.traced = true
  · rw [step_of_traced traced]
    have kept := @kept_execute F V trace exitDepth { a with core := a.executing trace }
    cases e : execute F V trace exitDepth { a with core := a.executing trace } with
    | done => trivial
    | running b =>
      rw [e] at kept
      refine ⟨fun off => kept.1.trans ?_, kept.2⟩
      rw [off]
      rfl
  · unfold step
    rw [Classical.not_imp] at traced
    rw [if_pos (by rw [traced.1, eq_false_of_ne_true traced.2]; rfl)]
    trivial

/-- Wherever a run is, it keeps within its budget. -/
lemma within_runFor (l : core.mem.Regions) (flag : trace = false → core.traced = false)
    {budget n : Nat}
    (e : Status.runFor (step F V trace exitDepth) n (start V core budget) = .running a) :
    a.Within core trace budget := by
  have holds : (Status.runFor (step F V trace exitDepth) n (start V core budget)).Holds
      (At.Within core trace budget) fun _ => True := by
    refine Status.runFor_holds (fun b h => ?_) n ?_
    · have moved := @movedFrom_step F V trace exitDepth b (h.moved.regions l)
      have loaded := @loadedAt_step F V trace exitDepth b h.loaded (h.moved.regions l)
      have here := @locatedAt_step F V trace exitDepth b h.here
      have kept := @kept_step F V trace exitDepth b
      cases next : step F V trace exitDepth b with
      | done => trivial
      | running c =>
        rw [next] at moved loaded here kept
        obtain ⟨same, budget⟩ := kept
        have le := h.le
        have some := h.some
        refine ⟨h.moved.trans moved, loaded, here, fun off => (same off).trans (h.flag off), ?_, ?_⟩
        · omega
        · omega
    · have moved := movedFrom_start V core budget
      have loaded := loadedAt_start V core budget
      have here := @locatedAt_start core V budget
      have kept := @kept_start V core budget
      cases next : start V core budget with
      | done => trivial
      | running c =>
        rw [next] at moved loaded here kept
        obtain ⟨same, budget⟩ := kept
        exact ⟨moved, loaded, here, fun off => same.trans (flag off), budget.le,
          fun none => budget ▸ none⟩
  rw [e] at holds
  exact holds

/-- The loop starts anew where it ended. -/
lemma start_again (runs : a.core.Runs V) (loaded : a.Loaded)
    (own : a.loc.prnum = 255 → ∀ ps, a.core.progs.head? = some ps → a.loc.code = ps.code) {core : Core}
    (progs : core.progs = a.core.progs) (size : core.mem.s.size = a.core.mem.s.size)
    (prnum : core.x.prnum = a.loc.prnum) (pc : core.x.pc = a.pc) (budget : Nat) :
    start V core budget = .running ⟨core, a.loc, a.pc, budget⟩ := by
  obtain ⟨ps, found, gb, ng⟩ := loaded.here
  obtain ⟨first, head⟩ : ∃ first, a.core.progs.head? = some first := by
    cases e : a.core.progs with
    | nil =>
      rw [e] at found
      cases found
    | cons first rest => exact ⟨first, rfl⟩
  have code : (if 255 ≠ a.loc.prnum then ps.code else first.code) = a.loc.code := by
    split
    next other => exact (loaded.own other.symm ps found).symm
    next same => exact (own (not_not.mp same).symm first head).symm
  have covered : V.coversCode a.loc.code = true ∧ V.covers core.mem.s = true := by
    cases V with
    | whole => exact ⟨rfl, rfl⟩
    | window =>
      obtain ⟨region, codes⟩ := Bool.and_eq_true_iff.mp (runs.fits rfl)
      obtain ⟨q, mem, same⟩ := loaded.loaded
      have padded := of_decide_eq_true (List.all_eq_true.mp codes q mem)
      have region : windowBytes ≤ a.core.mem.s.size := of_decide_eq_true region
      refine ⟨decide_eq_true ?_, decide_eq_true ?_⟩
      · rw [same, padded.2]
      · rw [size]
        exact region
  unfold start
  rw [progs, head]
  unfold reload
  dsimp only
  rw [progs, prnum, found, pc]
  dsimp only
  rw [code, covered.1, covered.2, ← gb, ← ng]
  rfl

/-- Alike loops step alike. -/
lemma alike_step {b : At} (h : a.Alike Eq b) :
    AlikeAt Eq (step F V trace exitDepth a) (step F V trace exitDepth b) := by
  obtain ⟨core', alike, rfl⟩ := h
  obtain ⟨pc, traced, flag, rfl⟩ := alike
  have same : ((a.core.markPc pc).flagged traced).traced = a.core.traced := flag.symm
  unfold step
  dsimp only
  rw [same]
  split
  next => exact ⟨_, ⟨true, rfl, rfl⟩, rfl⟩
  next =>
    cases trace with
    | true =>
      have alike : { a.core with traced := false }.Alike Eq
          { (a.core.markPc pc).flagged traced with traced := false } := ⟨pc, false, rfl, rfl⟩
      exact alike_execute (a := { a with core := { a.core with traced := false } }) alike rfl
    | false => exact alike_execute ⟨pc, traced, flag, rfl⟩ rfl

/-- Loops at alike cores stop with the same core. -/
lemma AlikeAt.done {st st' : Status At Stop} (h : AlikeAt Eq st st') {n : Nat} {stop : Stop}
    (done : Status.runFor (step F V trace exitDepth) n st = .done stop) :
    Status.runFor (step F V trace exitDepth) n st' = .done stop := by
  have related : AlikeAt Eq (Status.runFor (step F V trace exitDepth) n st)
      (Status.runFor (step F V trace exitDepth) n st') :=
    Status.runFor_related (fun _ _ h => alike_step h) n h
  rw [done] at related
  cases e : Status.runFor (step F V trace exitDepth) n st' with
  | running b =>
    rw [e] at related
    exact related.elim
  | done stop' =>
    rw [e] at related
    obtain ⟨_, ⟨_, rfl, rfl⟩, rfl⟩ := related
    rfl

/-- The statement that ended a run is executed again with the same effect. -/
lemma again_step (spent : a.Spent F V trace exitDepth) (repeats : a.Repeats V)
    (runs : a.core.Runs V) (l : a.core.mem.Regions) (loaded : a.Loaded)
    (here : a.core.x.prnum = a.loc.prnum) (flag : trace = false → a.core.traced = false) :
    ∃ core, core.traced = trace ∧ step F V trace exitDepth a = .done ⟨.budget, core, 0⟩ ∧
      ∀ budget, start V core budget = .running ⟨core, a.loc, a.pc, budget⟩ ∧
        AlikeAt Eq (step F V trace exitDepth { a with budget := budget })
          (step F V trace exitDepth ⟨core, a.loc, a.pc, budget⟩) := by
  obtain ⟨st, after, paid, found, charged, stopped⟩ := spent.step
  have cleared : a.core.Moved (a.executing trace) := by
    unfold At.executing
    split
    next => exact .of_eq rfl rfl
    next => exact .refl _
  have running : (a.executing trace).x = a.core.x := by
    unfold At.executing
    split <;> rfl
  have moved := cleared.trans
    ((a.site V st).run_moved (cleared.regions l) F (statement F (a.site V st) exitDepth))
  have same := @Site.same_run (a.site V st) (a.executing trace) F _ _ _
    (@placed_statement F (a.site V st) exitDepth)
  have traced := traced_run (F := F) (a.site V st) (statement F (a.site V st) exitDepth)
    (a.executing trace)
  rw [charged] at moved same traced
  dsimp only at moved same traced
  have silent : (a.executing trace).traced = false := by
    unfold At.executing
    cases trace with
    | true => rfl
    | false => exact flag rfl
  rw [silent] at traced
  refine ⟨_, rfl, stopped, fun budget => ⟨?_, ?_⟩⟩
  · have prnum : paid.x.prnum = a.core.x.prnum := same.prnum.trans (congrArg Exec.prnum running)
    refine start_again runs loaded repeats.own ?_ ?_ ?_ rfl budget
    · exact congrArg Core.Fixed.progs moved.fixed
    · exact congrArg Memory.Shape.sSize moved.mem.shape
    · exact prnum.trans here
  · have quiet : (a.site V st).st.op = .case → (a.executing trace).x.switchKind = .string →
        (a.executing trace).warnsEqual
          ((a.site V st).view.g (a.executing trace).mem.s (a.executing trace).x.switchRef)
          ((a.site V st).view.g (a.executing trace).mem.s (a.site V st).st.a) = false := by
      cases trace with
      | true => exact repeats.quiet st found
      | false => exact repeats.quiet st found
    have alike : paid.Alike Eq
        (At.executing ⟨(paid.markPc a.pc).flagged trace, a.loc, a.pc, budget⟩ trace) := by
      cases trace with
      | true => exact ⟨a.pc, false, traced, rfl⟩
      | false => exact ⟨a.pc, false, traced, rfl⟩
    have restarted : trace = true → ((paid.markPc a.pc).flagged trace).traced = true := id
    obtain ⟨value, rest⟩ := Site.again_statement charged quiet alike
    have first : step F V trace exitDepth { a with budget := budget }
        = charge F V trace ⟨paid, a.loc, a.pc, budget⟩ st after :=
      (step_of_traced (a := { a with budget := budget }) spent.traced).trans
        (execute_of_charge (a := ⟨a.executing trace, a.loc, a.pc, budget⟩) found charged)
    have second := (@step_of_traced F V trace exitDepth
      ⟨(paid.markPc a.pc).flagged trace, a.loc, a.pc, budget⟩ restarted).trans
      (execute_of_charge (a := ⟨_, a.loc, a.pc, budget⟩) found (Prod.ext value rfl))
    have charged := (Prog.run_value placed_statement
      (congrArg Prod.fst charged : ((statement F (a.site V st) exitDepth).run
        ((a.site V st).handle F) (a.executing trace)).1 = .ok (.charge after))).2
    rw [first, second]
    exact alike_charged (a := ⟨paid, a.loc, a.pc, budget⟩) rest rfl charged

/-- With more budget a run stops as before; or the budget was spent, and it stops where a run stops
that goes on with what is left, the count that ran out included. -/
theorem run_cut (runs : core.Runs V) (l : core.mem.Regions)
    (flag : trace = false → core.traced = false) (chunk more : Nat)
    (repeats : ∀ a, EndsAt F V trace exitDepth core chunk a → a.Repeats V) :
    let stop := run F V trace exitDepth core chunk
    (stop.exit ≠ .budget ∧ run F V trace exitDepth core (chunk + more) = stop.plus more) ∨
      (stop.exit = .budget ∧ stop.core.traced = trace ∧
        run F V trace exitDepth stop.core (chunk + more - (chunk - 1))
          = run F V trace exitDepth core (chunk + more)) := by
  intro stop
  obtain ⟨n, done⟩ := @Core.Runs.run_done F V trace exitDepth core runs l chunk
  rcases @cut_runFor F V trace exitDepth more n (start V core chunk) (exit_start chunk) with
    ⟨same, other⟩ | ⟨m, a, lt, at', spent, there⟩
  · rw [done] at same other
    rw [← plus_start] at same
    exact .inl ⟨other, runs.run_eq l same⟩
  · have within := within_runFor l flag at'
    have moved := within.moved
    obtain ⟨core', flagged, stopped, again⟩ := again_step spent (repeats a ⟨spent, m, at'⟩)
      (runs.plain moved.plain) (moved.regions l) within.loaded within.here within.flag
    have ended : stop = ⟨.budget, core', 0⟩ := by
      refine runs.run_eq (n := m + 1) l ?_
      rw [Status.runFor_add, at', Status.runFor_succ, stopped]
      rfl
    have left : (a.plus more).budget = chunk + more - (chunk - 1) := by
      have le := within.le
      have some := within.some
      have last := spent.last
      show a.budget + more = _
      omega
    obtain ⟨restarts, alike⟩ := again (a.plus more).budget
    -- The longer run goes on from the statement with what is left, like the new run.
    obtain ⟨k, done⟩ := @Core.Runs.run_done F V trace exitDepth core runs l (chunk + more)
    have goes : Status.runFor (step F V trace exitDepth) k (step F V trace exitDepth (a.plus more))
        = .done (run F V trace exitDepth core (chunk + more)) := by
      rw [plus_start] at done
      have later := Status.runFor_of_done done (Nat.le_add_left k (m + 1))
      rw [Status.runFor_add, Status.runFor_add, there, Status.runFor_succ, Status.runFor_zero]
        at later
      exact later
    refine .inr ⟨by rw [ended], by rw [ended]; exact flagged, ?_⟩
    have moved : core.Moved stop.core := moved_run l chunk
    have runs' : stop.core.Runs V := runs.plain moved.plain
    rw [ended] at runs' moved ⊢
    rw [← left]
    refine runs'.run_eq (n := k + 1) (moved.regions l) ?_
    rw [restarts, Status.runFor_succ]
    exact alike.done goes

/-- A run that ends where its budget is spent says so. -/
lemma EndsAt.exit {budget : Nat} (ends : EndsAt F V trace exitDepth core budget a)
    (runs : core.Runs V) (l : core.mem.Regions) :
    (run F V trace exitDepth core budget).exit = .budget := by
  obtain ⟨spent, n, at'⟩ := ends
  obtain ⟨_, _, _, _, _, stopped⟩ := spent.step
  have ended := runs.run_eq (n := n + 1) l (by
    rw [Status.runFor_add, at', Status.runFor_succ, stopped]
    rfl : Status.runFor (step F V trace exitDepth) (n + 1) (start V core budget) = .done _)
  rw [ended]

/-- No statement adds to the budget. -/
lemma budget_step_le : (step F V trace exitDepth a).Holds (fun b => b.budget ≤ a.budget)
    fun stop => stop.budget ≤ a.budget := by
  have executed (a : At) : (execute F V trace exitDepth a).Holds (fun b => b.budget ≤ a.budget)
      fun stop => stop.budget ≤ a.budget := by
    unfold execute
    split
    next => exact Nat.le_refl _
    next st _ =>
      dsimp only
      generalize (statement F (a.site V st) exitDepth).run ((a.site V st).handle F) a.core = r
      split
      next => exact Nat.le_refl _
      next => exact Nat.le_refl _
      next => exact Nat.le_refl _
      next after _ =>
        have spent := @budget_charge F V trace { a with core := r.2 } st after
        cases e : charge F V trace { a with core := r.2 } st after with
        | running b =>
          rw [e] at spent
          exact (Nat.le_of_eq spent).trans (Nat.sub_le _ _)
        | done stop =>
          rw [e] at spent
          exact (Nat.le_of_eq spent).trans (Nat.sub_le _ _)
  unfold step
  split
  next => exact Nat.le_refl _
  next => exact executed { a with core := a.executing trace }

/-- A run adds nothing to its budget. -/
lemma budget_run_le (budget : Nat) : (run F V trace exitDepth core budget).budget ≤ budget := by
  have holds : (Status.runFor (step F V trace exitDepth) (runBound core budget)
      (start V core budget)).Holds (fun a => a.budget ≤ budget)
        fun stop => stop.budget ≤ budget := by
    refine Status.runFor_holds (fun b le => ?_) _ ?_
    · have kept := @budget_step_le F V trace exitDepth b
      cases e : step F V trace exitDepth b with
      | running c =>
        rw [e] at kept
        exact Nat.le_trans kept le
      | done stop =>
        rw [e] at kept
        exact Nat.le_trans kept le
    · have kept := budget_start V core budget
      cases e : start V core budget with
      | running b =>
        rw [e] at kept
        exact Nat.le_of_eq kept
      | done stop =>
        rw [e] at kept
        exact Nat.le_of_eq kept
  unfold run
  split
  next stop e =>
    rw [e] at holds
    exact holds
  next => exact Nat.zero_le _

end Again

namespace Vm

variable {F : FloatOps} {exitDepth : Nat}

/-- How the loop of `execute_inner` lets the interpreter reach memory. -/
def view (vm : Vm) : View := if !vm.core.trace && vm.window then .window else .whole

/-- The core the interpreter starts with. -/
def fresh (vm : Vm) : Core := if vm.core.trace then vm.core else { vm.core with traced := false }

/-- No chunk of the budget but the last ends at a statement that cannot be executed again. -/
def CutsWell (F : FloatOps) (exitDepth : Nat) : List Nat → Vm → Prop
  | [], _ => True
  | size :: sizes, vm =>
    match vm.runChunk F exitDepth (min vm.budget size) with
    | (.more, next) =>
      (∀ a, EndsAt F vm.view vm.core.trace exitDepth vm.fresh (min vm.budget size) a →
        a.Repeats vm.view) ∧ CutsWell F exitDepth sizes next
    | _ => True

/-- An interpretation is a run of a fresh core. -/
lemma interpret_eq (vm : Vm) (chunk : Nat) : vm.interpret F exitDepth chunk
    = run F vm.view vm.core.trace exitDepth vm.fresh chunk := by
  unfold interpret view fresh
  cases vm.core.trace with
  | true => rfl
  | false => cases vm.window <;> rfl

/-- After a chunk the interpreter goes on the same way, from the core it stopped with. -/
lemma fresh_of_traced (vm : Vm) {core : Core} (budget : Nat) (trace : core.trace = vm.core.trace)
    (traced : core.traced = vm.core.trace) :
    view { vm with core := core, budget := budget } = vm.view ∧
      fresh { vm with core := core, budget := budget } = core := by
  refine ⟨?_, ?_⟩
  · show (if !core.trace && vm.window then View.window else .whole) = vm.view
    rw [trace]
    rfl
  · show (if core.trace then core else { core with traced := false }) = core
    by_cases on : core.trace = true
    · rw [if_pos on]
    · have off : core.traced = false := traced.trans (trace.symm.trans (eq_false_of_ne_true on))
      have same : core = { core with traced := false } := by
        rw [← off]
      rw [if_neg on]
      exact same.symm

/-- A chunk that is spent, but not the budget, asks for more. -/
lemma runChunk_of_budget {vm : Vm} {chunk : Nat}
    (spent : (vm.interpret F exitDepth chunk).exit = .budget)
    (lt : chunk < vm.budget) : vm.runChunk F exitDepth chunk = (.more,
      { vm with
        core := (vm.interpret F exitDepth chunk).core
        budget := vm.budget - (chunk - 1) }) := by
  unfold runChunk
  dsimp only
  rw [spent]
  exact if_neg (Nat.not_le_of_lt lt)

/-- A chunk that is not spent ends the run. -/
lemma runChunk_of_exit {vm : Vm} {chunk : Nat}
    (other : (vm.interpret F exitDepth chunk).exit ≠ .budget) :
    vm.runChunk F exitDepth chunk = (.exit (vm.interpret F exitDepth chunk).exit,
      { vm with
        core := (vm.interpret F exitDepth chunk).core
        budget := vm.budget - (chunk - (vm.interpret F exitDepth chunk).budget) }) := by
  unfold runChunk
  dsimp only
  split
  next spent => exact absurd spent other
  next => rfl

/-- The whole budget at once leaves what the run leaves of it. -/
lemma runChunk_whole (vm : Vm) : vm.runChunk F exitDepth vm.budget =
    let stop := vm.interpret F exitDepth vm.budget
    if stop.exit = .budget then (.runaway, { vm with core := stop.core, budget := 0 })
    else (.exit stop.exit, { vm with core := stop.core, budget := stop.budget }) := by
  have le : (vm.interpret F exitDepth vm.budget).budget ≤ vm.budget := by
    rw [interpret_eq]
    exact budget_run_le _
  dsimp only
  split
  next spent =>
    unfold runChunk
    dsimp only
    rw [spent]
    exact if_pos (Nat.le_refl _)
  next other =>
    rw [runChunk_of_exit other, Nat.sub_sub_self le]

/-- A run that goes on as the whole run does comes to the same. -/
lemma runChunk_resumed (vm : Vm) {core : Core} {budget : Nat} (trace : core.trace = vm.core.trace)
    (traced : core.traced = vm.core.trace)
    (resumes : run F vm.view vm.core.trace exitDepth core budget
      = vm.interpret F exitDepth vm.budget) :
    runChunk { vm with core := core, budget := budget } F exitDepth budget
      = vm.runChunk F exitDepth vm.budget := by
  obtain ⟨view, fresh⟩ := vm.fresh_of_traced budget trace traced
  have same : interpret { vm with core := core, budget := budget } F exitDepth budget
      = vm.interpret F exitDepth vm.budget := by
    rw [interpret_eq, view, fresh]
    dsimp only
    rw [trace, resumes]
  have whole := @runChunk_whole F exitDepth { vm with core := core, budget := budget }
  dsimp only at whole
  rw [same] at whole
  rw [whole, runChunk_whole]

/-- A budget handed out in chunks comes to the same as all of it at once, unless the deadline
passes. -/
theorem runChunks_whole {vm : Vm} (runs : vm.fresh.Runs vm.view) (l : vm.core.mem.Regions)
    (expires : Bool) {sizes : List Nat} (good : vm.CutsWell F exitDepth sizes) :
    (runChunks F exitDepth expires sizes vm).1 = .deadline ∨
      runChunks F exitDepth expires sizes vm = vm.runChunk F exitDepth vm.budget := by
  induction sizes generalizing vm with
  | nil => exact .inr rfl
  | cons size sizes ih =>
    have regions : vm.fresh.mem.Regions := by
      unfold fresh
      split <;> exact l
    have flag : vm.core.trace = false → vm.fresh.traced = false := fun off => by
      unfold fresh
      rw [off]
      rfl
    have cut (chunk : Nat) (le : chunk ≤ vm.budget) (repeats : ∀ a,
        EndsAt F vm.view vm.core.trace exitDepth vm.fresh chunk a → a.Repeats vm.view) :=
      run_cut runs regions flag chunk (vm.budget - chunk) repeats
    simp only [← interpret_eq] at cut
    unfold CutsWell at good
    unfold runChunks
    rcases Nat.lt_or_ge size vm.budget with lt | full
    · rw [Nat.min_eq_right (Nat.le_of_lt lt)] at good ⊢
      have all : size + (vm.budget - size) = vm.budget := Nat.add_sub_cancel' (Nat.le_of_lt lt)
      -- A chunk that is spent stops where the run in one piece comes by, and goes on from there.
      by_cases spent : (vm.interpret F exitDepth size).exit = .budget
      · rw [runChunk_of_budget spent lt] at good ⊢
        obtain ⟨repeats, rest⟩ := good
        dsimp only at rest ⊢
        split
        next => exact .inl rfl
        next =>
          obtain ⟨-, traced, resumes⟩ :=
            (cut size (Nat.le_of_lt lt) repeats).resolve_left fun other => other.1 spent
          rw [all] at resumes
          have moved : vm.core.Moved (vm.interpret F exitDepth size).core :=
            vm.moved_interpret l size
          have trace := congrArg Core.Fixed.trace moved.fixed
          obtain ⟨view, fresh⟩ := vm.fresh_of_traced (vm.budget - (size - 1)) trace traced
          have plain : vm.fresh.Plain (vm.interpret F exitDepth size).core := by
            unfold Vm.fresh
            split
            next => exact moved.plain
            next =>
              exact ⟨moved.plain.shape, moved.plain.progs, moved.plain.fields, moved.plain.config⟩
          have runs' := runs.plain plain
          have goesOn := @ih { vm with
            core := (vm.interpret F exitDepth size).core
            budget := vm.budget - (size - 1) } (by rw [view, fresh]; exact runs')
              (moved.regions l) rest
          exact goesOn.imp_right fun same => same.trans (vm.runChunk_resumed trace traced resumes)
      · rw [runChunk_of_exit spent, runChunk_whole]
        have longer := ((cut size (Nat.le_of_lt lt) fun a ends => absurd (ends.exit runs regions)
          (by rw [← interpret_eq]; exact spent)).resolve_right fun same => spent same.1).2
        have le : (vm.interpret F exitDepth size).budget ≤ size := by
          rw [interpret_eq]
          exact budget_run_le _
        rw [all] at longer
        rw [longer]
        refine .inr ?_
        dsimp only [Stop.plus]
        rw [if_neg spent]
        congr 3
        omega
    -- The chunk has room for the whole budget.
    · rw [Nat.min_eq_left full, runChunk_whole]
      dsimp only
      by_cases spent : (vm.interpret F exitDepth vm.budget).exit = .budget
      · rw [if_pos spent]
        exact .inr rfl
      · rw [if_neg spent]
        exact .inr rfl

end Vm

/-- The same action with the whole budget at once. -/
def Action.whole : Action → Action
  | .run _ _ => .run [] false
  | a => a

namespace Sys

variable {F : FloatOps} {s t : Sys}

/-- The interpreter of a reachable system runs to its stop. -/
lemma Reachable.runs (r : s.Reachable F) : s.vm.fresh.Runs s.vm.view := by
  have runs : s.vm.core.Runs s.vm.view := by
    refine ⟨r.blocks.toLinked, r.base.layout.mem.small, fun view => ?_⟩
    rw [← r.windowed]
    unfold Vm.view at view
    split at view
    next both => exact (Bool.and_eq_true_iff.mp both).2
    next => cases view
  refine runs.plain ?_
  unfold Vm.fresh
  split
  next => exact .refl _
  next => exact ⟨rfl, rfl, rfl, rfl⟩

/-- The budgets of a sequence of actions are handed out so that no chunk but the last ends at a
statement that cannot be executed again, and no deadline passes. -/
def CutsWell (F : FloatOps) : List Action → Sys → Prop
  | [], _ => True
  | a :: as, s =>
    (∀ sizes expires p rest, a = .run sizes expires → s.stack = p :: rest →
      s.vm.CutsWell F p.exitDepth sizes ∧
        (Vm.runChunks F p.exitDepth expires sizes s.vm).1 ≠ .deadline) ∧
    ∀ t, s.actIdleReset F a = some t → CutsWell F as t

/-- An action whose budget is cut well does what it does with the budget in one piece. -/
lemma act_whole {a : Action} (r : s.Reachable F)
    (good : ∀ sizes expires p rest, a = .run sizes expires → s.stack = p :: rest →
      s.vm.CutsWell F p.exitDepth sizes ∧
        (Vm.runChunks F p.exitDepth expires sizes s.vm).1 ≠ .deadline)
    (e : s.actIdleReset F a = some t) : s.actIdleReset F a.whole = some t := by
  cases a with
  | run sizes expires =>
    rw [actIdleReset_of_ne (by nofun)] at e
    rw [show (Action.run sizes expires).whole = .run [] false from rfl, actIdleReset_of_ne (by nofun)]
    unfold act at e
    cases stack : s.stack with
    | nil =>
      simp only [stack] at e
      cases e
    | cons p rest =>
      obtain ⟨cuts, open'⟩ := good sizes expires p rest rfl stack
      have regions := r.base.layout.mem.toRegions
      have same := (Vm.runChunks_whole r.runs regions expires cuts).resolve_left open'
      simp only [stack] at e
      split at e
      next => cases e
      next runs =>
        have interprets : ¬ p.doing ≠ .interpreting := fun other => runs (.inl other)
        unfold act
        simp only [stack]
        rw [if_neg (by simpa using interprets)]
        rw [same] at e
        exact e
  | host | call | runThreads | finish | stateDone | reset => exact e

/-- Handing out a budget in chunks is not observable: neither in one run of the loop, nor over any
sequence of actions, with nested calls that share the budget. -/
theorem chunks_unobservable (r : s.Reachable F) :
    (∀ exitDepth expires sizes, s.vm.CutsWell F exitDepth sizes →
      (Vm.runChunks F exitDepth expires sizes s.vm).1 ≠ .deadline →
      Vm.runChunks F exitDepth expires sizes s.vm = Vm.runChunks F exitDepth false [] s.vm) ∧
    ∀ as t, s.CutsWell F as → s.actsIdleReset F as = some t → s.actsIdleReset F (as.map Action.whole) = some t := by
  refine ⟨fun exitDepth expires sizes good open' => ?_, fun as t good e => ?_⟩
  · exact (Vm.runChunks_whole r.runs r.base.layout.mem.toRegions expires good).resolve_left open'
  · induction as generalizing s with
    | nil => exact e
    | cons a as ih =>
      obtain ⟨m, first, rest⟩ := Option.bind_eq_some_iff.mp e
      have same := act_whole r good.1 first
      show (s.actIdleReset F a.whole).bind (actsIdleReset F (as.map Action.whole)) = some t
      rw [same]
      exact ih (r.act first) (good.2 m first) rest

end Sys

/-! ## A switch on strings that resolve to nothing -/

/-- A function with a string switch whose operand and case resolve to nothing. -/
def Asm.badSwitch : Asm where
  statements :=
    [⟨0, 0, 0, 0, none⟩, ⟨100, 28, 1, 0, none⟩, ⟨103, 29, 1, 0, none⟩, ⟨0, 0, 0, 0, none⟩]
  functions := [⟨0, 0, 0, 0, 0, 0, []⟩, ⟨1, 0, 0, 0, 0, 0, []⟩]
  globals := List.replicate 28 0 ++ [0x80000001, 0x80000002]
  strings := [0]

/-- A configuration with a deadline. -/
def VmConfig.timed : VmConfig :=
  { VmConfig.menu with limits := { Limits.default with deadline := true } }

namespace Sys

/-- A run that has stopped after `n` statements ends where one of them finds the last count. -/
lemma repeats_of_done {F : FloatOps} {V : View} {trace : Bool} {exitDepth : Nat} {core : Core}
    {budget n : Nat} {stop : Stop}
    (done : Status.runFor (step F V trace exitDepth) n (start V core budget) = .done stop)
    (repeats : ∀ m < n, ∀ a, Status.runFor (step F V trace exitDepth) m (start V core budget)
      = .running a → a.budget ≤ 1 → a.Repeats V) (a : At)
    (ends : EndsAt F V trace exitDepth core budget a) : a.Repeats V := by
  obtain ⟨spent, m, at'⟩ := ends
  refine repeats m ?_ a at' spent.last
  by_contra late
  rw [Status.runFor_of_done done (Nat.le_of_not_lt late)] at at'
  cases at'

/-- With three counts, the switch and its case are paid for. -/
theorem chunks_unobservable_badSwitch : ∃ s t : Sys,
    Vm.runChunks .onZero 0 false [3] s.vm = Vm.runChunks .onZero 0 false [] s.vm ∧
    s.actsIdleReset .onZero [.run [3] false] = some t ∧ s.actsIdleReset .onZero [.run [] false] = some t := by
  have test : (Asm.badSwitch.boot .none .timed).any (fun vm =>
      (vm.start.actsIdleReset .onZero [.call (.new 0 1) []]).any fun s =>
        (s.actsIdleReset .onZero [.run [3] false]).isSome && decide (3 ≤ s.vm.budget) &&
          decide ((Vm.runChunks .onZero 0 false [3] s.vm).1 ≠ .deadline) &&
          s.stack.all (fun p => decide (p.exitDepth = 0)) &&
          (Status.runFor (step .onZero s.vm.view s.vm.core.trace 0) 3
            (start s.vm.view s.vm.fresh 3)).test (fun _ => false) (fun _ => true) &&
          (List.range 3).all fun m => (Status.runFor (step .onZero s.vm.view s.vm.core.trace 0) m
            (start s.vm.view s.vm.fresh 3)).test (fun a => decide (1 < a.budget) ||
              (decide (a.loc.prnum = 0) &&
                (s.vm.view.stmtAt a.loc.code a.pc).all fun st => decide (st.op ≠ .case)))
              fun _ => true) = true := by
    decide +kernel
  obtain ⟨vm, boot, test⟩ := (Option.any_eq_true _ _).mp test
  obtain ⟨s, acts, test⟩ := (Option.any_eq_true _ _).mp test
  simp only [Bool.and_eq_true, decide_eq_true_eq, List.all_eq_true] at test
  obtain ⟨⟨⟨⟨⟨ran, more⟩, open'⟩, depth⟩, stops⟩, check⟩ := test
  obtain ⟨t, ran⟩ := Option.isSome_iff_exists.mp ran
  have cuts : s.vm.CutsWell .onZero 0 [3] := by
    unfold Vm.CutsWell
    rw [Nat.min_eq_right more]
    split
    next =>
      refine ⟨?_, trivial⟩
      cases e : Status.runFor (step .onZero s.vm.view s.vm.core.trace 0) 3
          (start s.vm.view s.vm.fresh 3) with
      | running a =>
        rw [e] at stops
        cases stops
      | done stop =>
        refine repeats_of_done e fun m lt a at' last => ?_
        have here := check m (List.mem_range.mpr lt)
        rw [at'] at here
        simp only [Status.test, Bool.or_eq_true, decide_eq_true_eq, Bool.and_eq_true] at here
        obtain ⟨main, other⟩ := here.resolve_left (Nat.not_lt_of_le last)
        refine ⟨fun st found case => ?_, fun late => ?_⟩
        · rw [found] at other
          exact absurd case (of_decide_eq_true other)
        · rw [main] at late
          cases late
    next => trivial
  obtain ⟨runs, all⟩ := chunks_unobservable (reachable_boot (F := .onZero) boot acts)
  have good : s.CutsWell .onZero [.run [3] false] := by
    refine ⟨?_, fun _ _ => trivial⟩
    rintro sizes expires p rest ⟨⟩ stack
    have bottom := depth p (by rw [stack]; exact List.mem_cons_self)
    rw [bottom]
    exact ⟨cuts, open'⟩
  exact ⟨s, t, runs 0 false [3] cuts open', ran, all _ t good ran⟩

/-- A chunk of two counts ends at the case, and what was warned of is warned of again. -/
theorem chunks_observable : ¬ ∀ (F : FloatOps) (s : Sys) (exitDepth : Nat) (sizes : List Nat),
    s.Reachable F →
    Vm.runChunks F exitDepth false sizes s.vm = Vm.runChunks F exitDepth false [] s.vm := by
  intro claim
  have test : (Asm.badSwitch.boot .none .timed).any (fun vm =>
      (vm.start.actsIdleReset .onZero [.call (.new 0 1) []]).any fun s =>
        decide ((Vm.runChunks .onZero 0 false [2] s.vm).2.core.warnings.length
          ≠ (Vm.runChunks .onZero 0 false [] s.vm).2.core.warnings.length)) = true := by
    decide +kernel
  obtain ⟨vm, boot, test⟩ := (Option.any_eq_true _ _).mp test
  obtain ⟨s, acts, test⟩ := (Option.any_eq_true _ _).mp test
  refine of_decide_eq_true test ?_
  rw [claim .onZero s 0 [2] (reachable_boot boot acts)]

end Sys

end Qcvm

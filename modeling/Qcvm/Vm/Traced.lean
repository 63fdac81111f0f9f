import Qcvm.Vm.Windows

/-!
# Tracing is exact

The traced loop stops before each statement, and the host resumes it. It reports every statement the
fast loop executes, in order and once, and it ends as the fast loop does (`tracing_exact`); a first
statement that a call reported before it ran away is not reported again. Only for progs 255, for which
the loop takes the first progs when it starts anew, the two may part.
-/

namespace Qcvm

open Lib

/-- Any two flags. -/
def anyFlags (_ _ : Bool) : Prop := True

/-- The place of the statement the loop is at, as `Host::trace` is told. -/
def At.place (a : At) : Nat × Nat × Nat := (a.core.x.prnum, a.core.x.func, a.pc)

/-- The core of a loop that has reported the statement it is at. -/
def At.reported (a : At) : Core := (a.core.markPc a.pc).flagged true

/-- The places of the first `n` statements of an untraced run. -/
def places (F : FloatOps) (exitDepth : Nat) : Nat → Status At Stop → List (Nat × Nat × Nat)
  | 0, _ => []
  | _ + 1, .done _ => []
  | n + 1, .running a => a.place :: places F exitDepth n (step F .whole false exitDepth a)

/-- The traced loop, resumed after each statement it reports, `n` times at most: what it reports, and
where it ends. -/
def tracedRun (F : FloatOps) (exitDepth : Nat) : Nat → Core → Nat → Option (List (Nat × Nat × Nat) × Stop)
  | 0, _, _ => none
  | n + 1, core, budget =>
    let stop := runTraced F exitDepth core budget
    let x := stop.core.x
    if stop.exit = .trace then
      (tracedRun F exitDepth n stop.core stop.budget).map fun r => ((x.prnum, x.func, x.pc) :: r.1, r.2)
    else some ([], stop)

section Exits

variable {F : FloatOps} {V : View} {exitDepth : Nat} {core : Core} {a : At}

/-- Nothing but the loop itself stops it to report a statement. -/
def NotTraced : Status At Stop → Prop := Status.Holds (fun _ => True) fun stop => stop.exit ≠ .trace

lemma notTraced_reload (budget cachedPr : Nat) (cached : Arr Stmt) :
    NotTraced (reload V core budget cachedPr cached) := by
  unfold reload
  dsimp only
  split
  next => exact nofun
  next ps _ =>
    generalize (if cachedPr ≠ core.x.prnum then ps.code else cached) = code
    split
    next => exact nofun
    next =>
      split
      next => exact nofun
      next => trivial

lemma notTraced_start (budget : Nat) : NotTraced (start V core budget) := by
  unfold start
  split
  next => exact nofun
  next => exact notTraced_reload _ _ _

lemma notTraced_execute {trace : Bool} : NotTraced (execute F V trace exitDepth a) := by
  unfold execute
  split
  next => exact nofun
  next st _ =>
    dsimp only
    split
    next => exact nofun
    next => trivial
    next => exact nofun
    next after _ =>
      unfold charge
      dsimp only
      split
      next => exact nofun
      next =>
        unfold proceed
        dsimp only
        split
        next => exact nofun
        next => trivial
        next => trivial
        next => exact notTraced_reload _ _ _
        next => exact nofun
        next => exact nofun

end Exits

section Runs

variable {F : FloatOps} {exitDepth : Nat} {core : Core} {a : At}

lemma step_untraced : step F .whole false exitDepth a = execute F .whole false exitDepth a := rfl

/-- A loop at a statement it has not reported reports it. -/
lemma step_reports (silent : a.core.traced = false) :
    step F .whole true exitDepth a = .done ⟨.trace, a.reported, a.budget⟩ := by
  unfold step
  rw [silent]
  rfl

/-- A loop that is resumed at a reported statement executes it as the fast loop does. -/
lemma step_reported : AlikeAt anyFlags (step F .whole false exitDepth a)
    (step F .whole true exitDepth { a with core := a.reported }) := by
  have executing : step F .whole true exitDepth { a with core := a.reported }
      = execute F .whole true exitDepth { a with core := (a.core.markPc a.pc).flagged false } := rfl
  rw [step_untraced, executing]
  exact alike_execute ⟨a.pc, false, trivial, rfl⟩ trivial

/-- The loop may be started anew where it is. -/
structure At.Restarts (a : At) : Prop where
  runs : a.core.Runs .whole
  regions : a.core.mem.Regions
  loaded : a.Loaded
  here : a.core.x.prnum = a.loc.prnum
  silent : a.core.traced = false
  own : a.loc.prnum = 255 → ∀ ps, a.core.progs.head? = some ps → a.loc.code = ps.code

/-- Resumed at a reported statement, the traced loop ends as the fast loop does or reports the next
statement. -/
lemma run_reported (h : a.Restarts) :
    (∀ stop, step F .whole false exitDepth a = .done stop → ∃ stop', stop.Twin anyFlags stop' ∧
      stop'.exit ≠ .trace ∧ runTraced F exitDepth a.reported a.budget = stop') ∧
    ∀ b, step F .whole false exitDepth a = .running b →
      runTraced F exitDepth a.reported a.budget = ⟨.trace, b.reported, b.budget⟩ := by
  have runs : a.reported.Runs .whole := h.runs.plain ⟨rfl, rfl, rfl, rfl⟩
  have regions : a.reported.mem.Regions := h.regions
  have again : start .whole a.reported a.budget = .running { a with core := a.reported } :=
    start_again h.runs h.loaded h.own (show a.reported.progs = a.core.progs from rfl) rfl h.here rfl _
  have related := @step_reported F exitDepth a
  refine ⟨fun stop done => ?_, fun b on => ?_⟩
  · rw [done] at related
    cases e : step F .whole true exitDepth { a with core := a.reported } with
    | running b =>
      rw [e] at related
      exact related.elim
    | done stop' =>
      rw [e] at related
      have twin : stop.Twin anyFlags stop' := related
      have other : NotTraced (step F .whole false exitDepth a) := notTraced_execute
      rw [done] at other
      have same : stop'.exit = stop.exit := by
        obtain ⟨_, _, rfl⟩ := twin
        rfl
      refine ⟨stop', twin, same ▸ other, ?_⟩
      refine @Core.Runs.run_eq F .whole true exitDepth a.reported a.budget 1 stop' runs regions ?_
      rw [again, Status.runFor_succ, e]
      rfl
  · rw [on] at related
    cases e : step F .whole true exitDepth { a with core := a.reported } with
    | done stop =>
      rw [e] at related
      exact related.elim
    | running b' =>
      have kept := @kept_execute F .whole true exitDepth
        { a with core := (a.core.markPc a.pc).flagged false }
      have executing : step F .whole true exitDepth { a with core := a.reported }
          = execute F .whole true exitDepth { a with core := (a.core.markPc a.pc).flagged false } := rfl
      rw [← executing, e] at kept
      have silent : b'.core.traced = false := kept.1
      rw [e] at related
      have reports := @step_reports F exitDepth b' silent
      obtain ⟨_, ⟨pc, traced, -, rfl⟩, rfl⟩ := related
      refine @Core.Runs.run_eq F .whole true exitDepth a.reported a.budget 2 _ runs regions ?_
      rw [again, Status.runFor_succ, e, Status.runFor_succ, reports]
      rfl

/-- A run that has stopped reaches no more statements. -/
lemma places_of_done {m n : Nat} {st : Status At Stop} {stop : Stop}
    (done : Status.runFor (step F .whole false exitDepth) m st = .done stop) (le : m ≤ n) :
    places F exitDepth n st = places F exitDepth m st := by
  induction m generalizing n st with
  | zero =>
    rw [Status.runFor_zero] at done
    rw [done]
    cases n <;> rfl
  | succ m ih =>
    cases n with
    | zero => exact absurd le (Nat.not_succ_le_zero m)
    | succ n =>
      cases st with
      | done stop => rfl
      | running a => exact congrArg (List.cons a.place) (ih done (Nat.le_of_succ_le_succ le))

/-- From a reported statement on, the traced loop reports every statement that follows. -/
lemma tracedRun_reported {n : Nat} {stop : Stop} (restarts : ∀ m b,
      Status.runFor (step F .whole false exitDepth) m (.running a) = .running b → b.Restarts)
    (done : Status.runFor (step F .whole false exitDepth) n (.running a) = .done stop) :
    ∃ stop', stop.Twin anyFlags stop' ∧ stop'.exit ≠ .trace ∧
      tracedRun F exitDepth n a.reported a.budget
        = some ((places F exitDepth n (.running a)).tail, stop') := by
  induction n generalizing a with
  | zero => cases done
  | succ n ih =>
    obtain ⟨ends, goes⟩ := @run_reported F exitDepth a (restarts 0 a rfl)
    rw [Status.runFor_succ] at done
    unfold tracedRun places
    cases e : step F .whole false exitDepth a with
    | done stop₀ =>
      rw [e, Status.runFor_done] at done
      cases done
      obtain ⟨stop', twin, other, ran⟩ := ends _ e
      refine ⟨stop', twin, other, ?_⟩
      dsimp only
      rw [ran, if_neg other]
      cases n <;> rfl
    | running b =>
      rw [e] at done
      have later (m : Nat) (c : At) (at' : Status.runFor (step F .whole false exitDepth) m
          (.running b) = .running c) : c.Restarts := by
        refine restarts (m + 1) c ?_
        rw [Status.runFor_succ, e]
        exact at'
      obtain ⟨stop', twin, other, rest⟩ := ih later done
      refine ⟨stop', twin, other, ?_⟩
      dsimp only
      rw [goes b e, if_pos rfl]
      dsimp only
      rw [rest]
      cases n with
      | zero => cases done
      | succ n => rfl

/-- The traced loop reports the statements the fast loop executes, in order and once each, and ends as
the fast loop does. -/
theorem tracedRun_exact {budget n : Nat} {stop : Stop} (runs : core.Runs .whole)
    (l : core.mem.Regions) (restarts : ∀ m b,
      Status.runFor (step F .whole false exitDepth) m (start .whole core budget) = .running b →
      b.Restarts)
    (done : Status.runFor (step F .whole false exitDepth) n (start .whole core budget) = .done stop) :
    ∃ stop', stop.Twin anyFlags stop' ∧ stop'.exit ≠ .trace ∧ tracedRun F exitDepth (n + 1) core budget
      = some (places F exitDepth n (start .whole core budget), stop') := by
  cases e : start .whole core budget with
  | done stop₀ =>
    have ran : runTraced F exitDepth core budget = stop₀ := by
      refine @Core.Runs.run_eq F .whole true exitDepth core budget 0 stop₀ runs l ?_
      rw [e]
      rfl
    have other : NotTraced (start .whole core budget) := notTraced_start budget
    rw [e] at done other
    rw [Status.runFor_done] at done
    cases done
    refine ⟨stop, ⟨stop.core, ⟨stop.core.traced, trivial, rfl⟩, rfl⟩, other, ?_⟩
    unfold tracedRun
    dsimp only
    rw [ran, if_neg other]
    cases n <;> rfl
  | running a =>
    rw [e] at done restarts
    have ran : runTraced F exitDepth core budget = ⟨.trace, a.reported, a.budget⟩ := by
      refine @Core.Runs.run_eq F .whole true exitDepth core budget 1 _ runs l ?_
      rw [e, Status.runFor_succ, step_reports (restarts 0 a rfl).silent]
      rfl
    obtain ⟨stop', twin, other, rest⟩ := tracedRun_reported restarts done
    refine ⟨stop', twin, other, ?_⟩
    unfold tracedRun
    dsimp only
    rw [ran, if_pos rfl]
    dsimp only
    rw [rest]
    cases n with
    | zero => cases done
    | succ n => rfl

/-- Alike runs execute the same statements. -/
lemma places_alike {n : Nat} {st st' : Status At Stop} (alike : AlikeAt anyFlags st st') :
    places F exitDepth n st = places F exitDepth n st' := by
  induction n generalizing st st' with
  | zero => rfl
  | succ n ih =>
    cases st with
    | done stop =>
      cases st' with
      | done stop' => rfl
      | running a' => exact alike.elim
    | running a =>
      cases st' with
      | done stop' => exact alike.elim
      | running a' =>
        obtain ⟨core', same, rfl⟩ := alike
        have next : AlikeAt anyFlags (step F .whole false exitDepth a)
            (step F .whole false exitDepth { a with core := core' }) := alike_execute same trivial
        obtain ⟨pc, traced, -, rfl⟩ := same
        exact congrArg (List.cons a.place) (ih next)

/-- The loop goes on at the stored `pc`. -/
lemma reload_running {V : View} {budget cachedPr : Nat} {cached : Arr Stmt}
    (e : reload V core budget cachedPr cached = .running a) :
    a.core = core ∧ a.pc = core.x.pc ∧ a.budget = budget := by
  unfold reload at e
  dsimp only at e
  split at e
  next => cases e
  next ps _ =>
    generalize (if cachedPr ≠ core.x.prnum then ps.code else cached) = code at e
    split at e
    next => cases e
    next =>
      split at e
      next => cases e
      next =>
        cases e
        exact ⟨rfl, rfl, rfl⟩

/-- The loop starts at the stored `pc`. -/
lemma start_running {V : View} {budget : Nat} (e : start V core budget = .running a) :
    a.core = core ∧ a.pc = core.x.pc ∧ a.budget = budget := by
  unfold start at e
  split at e
  next => cases e
  next => exact reload_running e

/-- When its first statement has been reported already, as after a call that ran away, the traced loop
reports the others. -/
lemma tracedRun_resumed {budget n : Nat} {stop : Stop} (runs : core.Runs .whole)
    (l : core.mem.Regions) (told : core.traced = true) (restarts : ∀ m b,
      Status.runFor (step F .whole false exitDepth) m (start .whole (core.flagged false) budget)
        = .running b → b.Restarts)
    (done : Status.runFor (step F .whole false exitDepth) n (start .whole core budget) = .done stop) :
    ∃ stop', stop.Twin anyFlags stop' ∧ stop'.exit ≠ .trace ∧ tracedRun F exitDepth (n + 1) core budget
      = some ((places F exitDepth n (start .whole core budget)).tail, stop') := by
  have alike : AlikeAt anyFlags (start .whole core budget) (start .whole (core.flagged false) budget) :=
    alike_start ⟨false, trivial, rfl⟩ budget
  have ends : AlikeAt anyFlags
      (Status.runFor (step F .whole false exitDepth) n (start .whole core budget))
      (Status.runFor (step F .whole false exitDepth) n (start .whole (core.flagged false) budget)) :=
    Status.runFor_related (fun a b h => by
      obtain ⟨core', same, rfl⟩ := h
      exact alike_execute same trivial) n alike
  rw [done] at ends
  cases done' : Status.runFor (step F .whole false exitDepth) n
      (start .whole (core.flagged false) budget) with
  | running b =>
    rw [done'] at ends
    exact ends.elim
  | done stop₁ =>
    rw [done'] at ends
    obtain ⟨_, ⟨traced, -, rfl⟩, rfl⟩ := ends
    rw [places_alike alike]
    cases e : start .whole (core.flagged false) budget with
    | done stop₀ =>
      cases first : start .whole core budget with
      | running a =>
        rw [first, e] at alike
        exact alike.elim
      | done stop₂ =>
        have ran : runTraced F exitDepth core budget = stop₂ := by
          refine @Core.Runs.run_eq F .whole true exitDepth core budget 0 stop₂ runs l ?_
          rw [first]
          rfl
        have other : NotTraced (start .whole core budget) := notTraced_start budget
        rw [first] at done other
        rw [Status.runFor_done] at done
        cases done
        refine ⟨stop, ⟨stop.core, ⟨stop.core.traced, trivial, rfl⟩, rfl⟩, other, ?_⟩
        unfold tracedRun
        dsimp only
        rw [ran, if_neg other]
        cases n <;> rfl
    | running a =>
      rw [e] at done' restarts
      obtain ⟨same, pc, left⟩ := start_running e
      have reported : a.reported = core := by
        unfold At.reported
        rw [same, pc]
        show { core with traced := true } = core
        rw [← told]
      have longer : Status.runFor (step F .whole false exitDepth) (n + 1) (.running a)
          = .done { stop with core := stop.core.flagged traced } := by
        rw [Status.runFor_add, done']
        rfl
      obtain ⟨stop', ⟨_, ⟨traced', -, rfl⟩, rfl⟩, other, rest⟩ := tracedRun_reported restarts longer
      rw [reported, left, places_of_done done' (Nat.le_succ n)] at rest
      exact ⟨_, ⟨_, ⟨traced', trivial, rfl⟩, rfl⟩, other, rest⟩

end Runs

/-- What the loop of `execute_inner` makes of a stop of a run with the whole budget. -/
def Vm.concluded (vm : Vm) (stop : Stop) : Verdict × Vm :=
  if stop.exit = .budget then (.runaway, { vm with core := stop.core, budget := 0 })
  else (.exit stop.exit, { vm with core := stop.core, budget := stop.budget })

namespace Sys

variable {F : FloatOps} {s : Sys}

/-- What the host sees of a statement. -/
def traceEvent (place : Nat × Nat × Nat) : Event := .trace place.1 place.2.1 place.2.2

/-- A host that lets a traced VM run on and on. -/
lemma acts_tracedRun {n : Nat} {vm : Vm} {p : Pending} {rest : List Pending} {events : List Event}
    {reports : List (Nat × Nat × Nat)} {stop : Stop} (doing : p.doing = .interpreting)
    (on : vm.core.trace = true) (l : vm.core.mem.Regions)
    (ran : tracedRun F p.exitDepth n vm.core vm.budget = some (reports, stop)) :
    actsIdleReset F (List.replicate (reports.length + 1) (.run [] false)) ⟨vm, p :: rest, events⟩
      = some (onVerdict ⟨(vm.concluded stop).2, rest, events ++ reports.map traceEvent⟩ p
          (vm.concluded stop).1) := by
  induction n generalizing vm events reports with
  | zero => cases ran
  | succ n ih =>
    have interpret : vm.interpret F p.exitDepth vm.budget
        = runTraced F p.exitDepth vm.core vm.budget := by
      unfold Vm.interpret
      rw [if_pos on]
    have chunk : Vm.runChunks F p.exitDepth false [] vm
        = vm.concluded (runTraced F p.exitDepth vm.core vm.budget) := by
      rw [← interpret]
      exact Vm.runChunk_whole vm
    have act : actIdleReset ⟨vm, p :: rest, events⟩ F (.run [] false)
        = some (onVerdict ⟨(vm.concluded (runTraced F p.exitDepth vm.core vm.budget)).2, rest, events⟩ p
            (vm.concluded (runTraced F p.exitDepth vm.core vm.budget)).1) := by
      rw [actIdleReset_of_ne (by nofun)]
      simp only [Sys.act]
      rw [if_neg (by rw [doing]; simp), chunk]
    unfold tracedRun at ran
    dsimp only at ran
    have moved : vm.core.Moved (runTraced F p.exitDepth vm.core vm.budget).core := moved_run l _
    generalize runTraced F p.exitDepth vm.core vm.budget = stop₀ at ran act moved
    split at ran
    next reported =>
      obtain ⟨⟨reports', stop'⟩, later, e⟩ := Option.map_eq_some_iff.mp ran
      cases e
      have goesOn : vm.concluded stop₀ = (.exit .trace,
          { vm with core := stop₀.core, budget := stop₀.budget }) := by
        unfold Vm.concluded
        rw [if_neg (by rw [reported]; simp), reported]
      have trace : stop₀.core.trace = true :=
        (congrArg Core.Fixed.trace moved.fixed : stop₀.core.trace = vm.core.trace).trans on
      rw [List.length_cons, List.replicate_succ, actsIdleReset, act, goesOn]
      show actsIdleReset F (List.replicate (reports'.length + 1) (.run [] false))
        ⟨{ vm with core := stop₀.core, budget := stop₀.budget }, p :: rest, events ++ [_]⟩ = _
      rw [ih trace (moved.regions l) later, List.map_cons, List.append_assoc]
      rfl
    next other =>
      cases ran
      rw [List.length_nil, List.map_nil, List.append_nil, List.replicate_succ, actsIdleReset, act]
      rfl

/-- Tracing is not observable but for what it reports: the host that resumes a traced VM after each
report sees every statement the fast loop executes, in order and once each, but for one that was reported
before, and the call goes on as after the fast loop, up to the flag that a statement was reported. -/
theorem tracing_exact (r : s.Reachable F) {p : Pending} {rest : List Pending} (here : s.stack = p :: rest)
    (doing : p.doing = .interpreting) (on : s.vm.core.trace = true)
    (few : s.vm.core.progs.length ≤ 255) :
    ∃ n stop, Status.runFor (step F .whole false p.exitDepth) n (start .whole s.vm.core s.vm.budget)
        = .done (runFast F p.exitDepth s.vm.core s.vm.budget) ∧
      (runFast F p.exitDepth s.vm.core s.vm.budget).Twin anyFlags stop ∧
      let executed := places F p.exitDepth n (start .whole s.vm.core s.vm.budget)
      let reports := if s.vm.core.traced then executed.tail else executed
      s.actsIdleReset F (List.replicate (reports.length + 1) (.run [] false))
        = some (onVerdict ⟨(s.vm.concluded stop).2, rest, s.events ++ reports.map traceEvent⟩ p
            (s.vm.concluded stop).1) := by
  have l := r.base.layout.mem.toRegions
  have runs : s.vm.core.Runs .whole := ⟨r.blocks.toLinked, r.base.layout.mem.small, nofun⟩
  obtain ⟨n, done⟩ := @Core.Runs.run_done F .whole false p.exitDepth s.vm.core runs l s.vm.budget
  have restarts (m : Nat) (b : At) (at' : Status.runFor (step F .whole false p.exitDepth) m
      (start .whole (s.vm.core.flagged false) s.vm.budget) = .running b) : b.Restarts := by
    have idle : (s.vm.core.flagged false).Runs .whole := runs.plain ⟨rfl, rfl, rfl, rfl⟩
    have regions : (s.vm.core.flagged false).mem.Regions := l
    have within := within_runFor regions (fun _ => rfl) at'
    have moved := within.moved
    refine ⟨idle.plain moved.plain, moved.regions regions, within.loaded, within.here,
      within.flag rfl, fun last => ?_⟩
    obtain ⟨ps, found, -⟩ := within.loaded.here
    have progs : b.core.progs = s.vm.core.progs := congrArg Core.Fixed.progs moved.fixed
    have lt := (List.getElem?_eq_some_iff.mp found).1
    rw [last, progs] at lt
    omega
  -- A call left traced by an earlier stop skips its first report, the other starts with it.
  have traced : ∃ stop, (runFast F p.exitDepth s.vm.core s.vm.budget).Twin anyFlags stop ∧
      tracedRun F p.exitDepth (n + 1) s.vm.core s.vm.budget
        = some (if s.vm.core.traced
            then (places F p.exitDepth n (start .whole s.vm.core s.vm.budget)).tail
            else places F p.exitDepth n (start .whole s.vm.core s.vm.budget), stop) := by
    cases told : s.vm.core.traced with
    | true =>
      obtain ⟨stop, twin, -, ran⟩ := tracedRun_resumed runs l told restarts done
      exact ⟨stop, twin, ran⟩
    | false =>
      have idle : s.vm.core.flagged false = s.vm.core := by
        rw [← told]
        rfl
      rw [idle] at restarts
      obtain ⟨stop, twin, -, ran⟩ := tracedRun_exact runs l restarts done
      exact ⟨stop, twin, ran⟩
  obtain ⟨stop, twin, ran⟩ := traced
  refine ⟨n, stop, done, twin, ?_⟩
  have acted := @acts_tracedRun F (n + 1) s.vm p rest s.events _ stop doing on l ran
  rw [← here] at acted
  exact acted

/-- A traced call of a function that calls another one: three statements are reported. -/
theorem tracing_exact_registerCall : ∃ (s : Sys) (p : Pending) (rest : List Pending) (stop : Stop)
    (reports : List (Nat × Nat × Nat)), s.stack = p :: rest ∧ reports.length = 3 ∧
    (runFast .onZero p.exitDepth s.vm.core s.vm.budget).Twin anyFlags stop ∧
    s.actsIdleReset .onZero (List.replicate 4 (.run [] false))
      = some (onVerdict ⟨(s.vm.concluded stop).2, rest, s.events ++ reports.map traceEvent⟩ p
            (s.vm.concluded stop).1) := by
  have test : (Asm.registerCall.boot .none .menu).any (fun vm =>
      (vm.start.actsIdleReset .onZero (.host (.setTrace true) :: callFirst)).any fun s => s.vm.core.trace &&
        !s.vm.core.traced && decide (s.vm.core.progs.length ≤ 255) &&
        s.stack.head?.any (fun p => decide (p.doing = .interpreting) && decide (p.exitDepth = 0)) &&
        ((Status.runFor (step .onZero .whole false 0) 3 (start .whole s.vm.core s.vm.budget)).test
          (fun _ => false) fun _ => true) &&
        decide ((places .onZero 0 3 (start .whole s.vm.core s.vm.budget)).length = 3)) = true := by
    decide +kernel
  obtain ⟨vm, boot, test⟩ := (Option.any_eq_true _ _).mp test
  obtain ⟨s, acts, test⟩ := (Option.any_eq_true _ _).mp test
  simp only [Bool.and_eq_true, Bool.not_eq_true', decide_eq_true_eq] at test
  obtain ⟨⟨⟨⟨⟨on, silent⟩, few⟩, called⟩, stops⟩, three⟩ := test
  obtain ⟨p, innermost, called⟩ := (Option.any_eq_true _ _).mp called
  obtain ⟨rest, here⟩ := List.head?_eq_some_iff.mp innermost
  obtain ⟨doing, depth⟩ := Bool.and_eq_true_iff.mp called
  have depth : p.exitDepth = 0 := of_decide_eq_true depth
  obtain ⟨n, stop, done, twin, acted⟩ := tracing_exact (reachable_boot boot acts) here
    (of_decide_eq_true doing) on few
  have length : (places .onZero p.exitDepth n (start .whole s.vm.core s.vm.budget)).length = 3 := by
    rw [depth] at done ⊢
    cases early : Status.runFor (step .onZero .whole false 0) 3 (start .whole s.vm.core s.vm.budget) with
    | running a =>
      rw [early] at stops
      cases stops
    | done stop' =>
      rcases Nat.le_total 3 n with le | le
      · rw [places_of_done early le]
        exact three
      · rw [← places_of_done done le]
        exact three
  dsimp only at acted
  rw [silent, if_neg Bool.false_ne_true, length] at acted
  exact ⟨s, p, rest, stop, _, here, length, twin, acted⟩

end Sys

end Qcvm

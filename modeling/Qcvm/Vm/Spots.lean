import Qcvm.Vm.Bounded

/-!
# Where QuakeC goes on

The registers, every saved caller and every sleeping thread name a statement to go on at and the
operand of the last `SWITCH`. A property of such spots that entries, jumps and following statements
have (`SpotRule`) holds wherever the interpreter stops, of all callers above its exit depth.
-/

namespace Qcvm

open Lib

/-- A statement of a progs, with the operand of the last `SWITCH`. -/
structure Spot where
  prnum : Nat
  pc : Nat
  switchRef : Nat

/-- Where the registers are. -/
def Exec.spot (x : Exec) : Spot := ⟨x.prnum, x.pc, x.switchRef⟩

/-- Where a caller goes on. -/
def Frame.spot (f : Frame) : Spot := ⟨f.prnum, f.resumePc, f.switchRef⟩

/-- Where an activation of a thread goes on. -/
def Activation.spot (a : Activation) : Spot := ⟨a.prnum, a.pc, a.switchRef⟩

/-- The context of a core whose loop is at `pc`. -/
def Core.contextAt (core : Core) (pc : Nat) : Context := (core.markPc pc).context

/-- The registers and the callers above a depth are at spots with a property. -/
structure Context.Spotted (P : Spot → Prop) (depth : Nat) (c : Context) : Prop where
  x : P c.x.spot
  frames : ∀ f ∈ c.frames.take (c.frames.length - (depth + 1)), P f.spot

/-- What a property of spots needs for the interpreter to keep it. -/
structure SpotRule (R : List ProgsState → Spot → Prop) : Prop where
  reset : ∀ {progs s}, R progs s → R progs { s with switchRef := 0 }
  entry : ∀ {core : Core} {prnum index ps f}, core.Linked → core.mem.s.size ≤ u32Max →
    core.lookupFunc prnum index = some (ps, f) → R core.progs ⟨prnum, f.entry, 0⟩
  goes : ∀ {core : Core} {s code} (pc : Nat), core.Cached s.prnum code → pc < code.size →
    R core.progs s → R core.progs { s with pc := pc }
  switches : ∀ {progs : List ProgsState} {s ps} (ref : Nat), ps ∈ progs →
    GlobalAt ps.gbase (ps.numGlobals + globalsTail) ref → R progs s →
    R progs { s with switchRef := ref }
  below : ∀ {core : Core} {s}, windowFits core = true → R core.progs s → s.pc < codeWindow

namespace Context

variable {P : Spot → Prop} {depth : Nat} {c c' : Context} {reset : Bool}

/-- Being at spots depends on the place of the registers and the callers alone. -/
lemma Spotted.congr (h : c.Spotted P depth) (x : c'.x.spot = c.x.spot) (frames : c'.frames = c.frames) :
    c'.Spotted P depth := by
  refine ⟨x ▸ h.x, ?_⟩
  rw [frames]
  exact h.frames

/-- The callers above a depth, when the registers are elsewhere. -/
lemma Spotted.with (h : c.Spotted P depth) (x : P c'.x.spot) (frames : c'.frames = c.frames) :
    c'.Spotted P depth := by
  refine ⟨x, ?_⟩
  rw [frames]
  exact h.frames

/-- A caller that is left above the depth goes on at its spot. -/
lemma Spotted.leave (h : c.Spotted P depth) (resets : ∀ s, P s → P { s with switchRef := 0 })
    (above : depth < (c.leave reset).frames.length) : (c.leave reset).Spotted P depth := by
  obtain ⟨-, below⟩ := h
  rw [length_leave] at above
  obtain ⟨x, frames⟩ := c
  unfold Context.leave
  cases frames with
  | nil => exact absurd above (Nat.not_lt_zero _)
  | cons frame frames =>
    simp only [List.length_cons, Nat.add_sub_cancel] at above
    have taken : (frame :: frames).take ((frame :: frames).length - (depth + 1))
        = frame :: frames.take (frames.length - (depth + 1)) := by
      rw [List.length_cons, show frames.length + 1 - (depth + 1) = frames.length - (depth + 1) + 1
        by omega, List.take_succ_cons]
    dsimp only at below ⊢
    rw [taken] at below
    obtain ⟨here, rest⟩ := List.forall_mem_cons.mp below
    refine ⟨?_, rest⟩
    cases reset with
    | true => exact resets _ here
    | false => exact here

/-- The function that is entered and its caller are at spots. -/
lemma Spotted.enter {frame : Frame} (h : c.Spotted P depth) (x : P c'.x.spot) (caller : P frame.spot)
    (frames : c'.frames = frame :: c.frames) : c'.Spotted P depth := by
  refine ⟨x, ?_⟩
  rw [frames, List.length_cons]
  rcases Nat.lt_or_ge depth c.frames.length with deep | le
  · rw [show c.frames.length + 1 - (depth + 1) = c.frames.length - (depth + 1) + 1 by omega,
      List.take_succ_cons]
    exact List.forall_mem_cons.mpr ⟨caller, h.frames⟩
  · rw [show c.frames.length + 1 - (depth + 1) = 0 by omega]
    exact fun _ mem => absurd mem List.not_mem_nil

end Context

namespace Site

variable {site : Site} {core : Core} {P : Spot → Prop} {depth : Nat}

/-- An operation keeps the operand of the last `SWITCH`, unless it is one. -/
lemma switchRef_handle (F : FloatOps) {f : Micro} (placed : site.Placed f) :
    (site.handle F f core).2.x.switchRef = core.x.switchRef ∨
      site.Names .a ∧ (site.handle F f core).2.x.switchRef = site.st.a := by
  have marked {core' : Core} (e : core'.context = (core.markPc site.pc).context) :
      core'.x.switchRef = core.x.switchRef := congrArg (fun c : Context => c.x.switchRef) e
  cases f with
  | get | memGet | getGlobal | getRef | look | set | memSet | setGlobal | setArgc | setPushed
  | ptrRead => exact .inl rfl
  | rand15 =>
    have drawn (rng : Rng) : { core with rng := rng }.x.switchRef = core.x.switchRef := rfl
    exact .inl (drawn _)
  | setSwitch => exact .inr ⟨placed, rfl⟩
  | warn kind => exact .inl (marked (Core.context_warn _ _))
  | badFieldAccess e f => exact .inl (marked (Core.context_badFieldAccess _ _ _))
  | storeField words =>
    refine .inl ?_
    simp only [handle, storeField]
    split
    next => rfl
    next => exact marked (Core.context_storeField _ _ _ _)
  | storeThrough base offset bytes =>
    refine .inl ?_
    simp only [handle, storeThrough]
    split
    next => rfl
    next => exact marked (Core.context_ptrWrite _ _ _ _)
  | ptrWrite base offset bytes => exact .inl (marked (Core.context_ptrWrite _ _ _ _))
  | loadThrough words base offset =>
    refine .inl ?_
    simp only [handle, loadThrough]
    split
    next => rfl
    next => split <;> rfl
  | compound op =>
    refine .inl ?_
    simp only [handle, compound]
    split
    next => rfl
    next => exact marked (Core.context_compoundPointerStore _ _ _ _ _ _)
  | pointerStore op => exact .inl (marked (Core.context_compoundPointerStore _ _ _ _ _ _))
  | strOrWarn r => exact .inl (marked (Core.context_strOrWarn _ _))
  | stringsEqual a b => exact .inl (marked (Core.context_stringsEqual _ _ _))
  | stringCompare ne a b => exact .inl (marked (Core.context_stringCompare _ _ _ _ _))
  | enter | leave => exact placed.elim

variable (switches : site.Names .a → ∀ s, P s → P { s with switchRef := site.st.a }) {pc : Nat}
include switches

/-- So it keeps the spots. -/
lemma spotted_handle (F : FloatOps) {f : Micro} (placed : site.Placed f)
    (h : (core.contextAt pc).Spotted P depth) :
    ((site.handle F f core).2.contextAt pc).Spotted P depth := by
  have same : core.context.Same _ := same_handle F placed
  have prnum : (site.handle F f core).2.x.prnum = core.x.prnum := same.prnum
  have spot : ((site.handle F f core).2.contextAt pc).x.spot
      = ⟨core.x.prnum, pc, (site.handle F f core).2.x.switchRef⟩ := by
    rw [← prnum]
    rfl
  refine h.with ?_ same.frames
  rw [spot]
  rcases @switchRef_handle _ core F _ placed with kept | ⟨names, set⟩
  · rw [kept]
    exact h.x
  · rw [set]
    exact switches names _ h.x

/-- A placed arm keeps a core at spots. -/
lemma spotted_run (F : FloatOps) {α : Type} {p : Arm α} {Q : α → Prop} (placed : p.All site.Placed Q)
    (h : (core.contextAt pc).Spotted P depth) :
    ((p.run (site.handle F) core).2.contextAt pc).Spotted P depth :=
  Prog.run_preserves (I := fun core : Core => (core.contextAt pc).Spotted P depth) placed
    (fun _ _ placed h => spotted_handle switches F placed h) h

end Site

/-- A function returned to a depth: it ran to its end at a spot, and then it was left. -/
def Core.ReturnsFrom (P : Spot → Prop) (depth : Nat) (start core : Core) : Prop :=
  core.frames.length ≤ depth ∧ ∃ last : Core, start.Moved last ∧ start.context.Same last.context ∧
    last.context.Spotted P depth ∧ core = last.leave

namespace Site

variable {site : Site} {core : Core} {P : Spot → Prop} {depth exitDepth : Nat}

/-- Where a statement that is paid for goes on: at the next statement, at a jump target, or in
another function. -/
def GoesOn (site : Site) (P : Spot → Prop) (depth : Nat) (start : Core)
    (r : Except ErrorKind After × Core) : Prop :=
  match r.1 with
  | .error _ => (r.2.contextAt site.pc).Spotted P depth
  | .ok .next => r.2 = start ∧ (start.contextAt (wrappingAdd site.pc 1)).Spotted P depth
  | .ok (.goto target) => r.2 = start ∧ (start.contextAt target).Spotted P depth
  | .ok (.builtin _ _) => (r.2.contextAt (wrappingAdd site.pc 1)).Spotted P depth
  | .ok .reload => r.2.context.Spotted P depth
  | .ok .returned => start.ReturnsFrom P depth r.2

variable (switches : site.Names .a → ∀ s, P s → P { s with switchRef := site.st.a })
include switches

/-- What is left of a statement goes on at a spot. -/
lemma goesOn_charged (F : FloatOps) {after : Arm After} (charged : site.Charged exitDepth after)
    (resets : ∀ s, P s → P { s with switchRef := 0 })
    (next : ∀ s : Spot, s.prnum = core.x.prnum → P s → P { s with pc := wrappingAdd site.pc 1 })
    (jumps : ∀ slot, site.st.op.operand slot = .jump → ∀ s : Spot, s.prnum = core.x.prnum → P s →
      P { s with pc := site.st.operand slot })
    (l : core.mem.Regions) (entry : ∀ (c : Core) prnum index ps f, c.progs = core.progs →
      c.lookupFunc prnum index = some (ps, f) → P ⟨prnum, f.entry, 0⟩)
    (h : (core.contextAt site.pc).Spotted P exitDepth) :
    site.GoesOn P exitDepth core (after.run (site.handle F) core) := by
  cases charged with
  | next => exact ⟨rfl, h.with (next _ rfl h.x) rfl⟩
  | goto slot jump => exact ⟨rfl, h.with (jumps slot jump _ rfl h.x) rfl⟩
  | leave names =>
    have copied := spotted_run switches F (all_return names) h
    have same : core.context.Same _ := same_run F (all_return names)
    have moved := site.run_moved l F (Arm.copyToGlobals .a ofsReturn)
    unfold Arm.leaveFunction
    rw [Prog.bind_eq, Prog.run_bind]
    generalize (Arm.copyToGlobals .a ofsReturn).run (site.handle F) core = r at copied same moved
    obtain ⟨_ | _, last⟩ := r
    · exact copied
    · simp only [Prog.run_call, Prog.pure_eq, Prog.run_pure]
      change site.GoesOn P exitDepth core (.ok (if (last.markPc site.pc).leave.frames.length ≤ exitDepth
        then .returned else .reload), (last.markPc site.pc).leave)
      by_cases deep : (last.markPc site.pc).leave.frames.length ≤ exitDepth
      · rw [if_pos deep]
        exact ⟨deep, last.markPc site.pc, moved.trans (last.moved_markPc _),
          same.trans (last.same_markPc _), copied, rfl⟩
      · rw [if_neg deep]
        have above : exitDepth < (last.markPc site.pc).leave.context.frames.length :=
          Nat.lt_of_not_le deep
        show (last.markPc site.pc).leave.context.Spotted P exitDepth
        rw [Core.context_leave] at above ⊢
        exact Context.Spotted.leave copied resets above
  | dispatch call =>
    have passes : (Arm.passArguments site.st.op).All site.Placed fun _ => True :=
      all_passArguments trivial
    have passed := spotted_run switches F passes h
    have same : core.context.Same _ := same_run F passes
    have progs := congrArg Core.Fixed.progs (site.run_moved l F (Arm.passArguments site.st.op)).fixed
    rw [run_dispatch]
    generalize (Arm.passArguments site.st.op).run (site.handle F) core = r at passed same progs
    obtain ⟨_ | _, core'⟩ := r
    · exact passed
    · have ready : ({ core' with argc := site.st.op.callArgc.getD 0 }.contextAt site.pc).Spotted P
          exitDepth := passed
      dsimp only
      generalize site.view.g core'.mem.s site.st.a = fv
      unfold called
      dsimp only
      split
      next =>
        have caller := next _ same.prnum ready.x
        have progs : { core' with argc := site.st.op.callArgc.getD 0 }.progs = core.progs := progs
        generalize { core' with argc := site.st.op.callArgc.getD 0 } = c at ready progs caller
        rcases e : (c.markPc site.pc).enter _ _ (wrappingAdd site.pc 1) with ⟨_ | _, entered⟩
        · obtain ⟨m, rfl, -⟩ := Core.enter_error e
          exact ready
        · obtain ⟨ps, f, enters⟩ := Core.enters e
          have resumed : P ((c.markPc site.pc).saveFrame (wrappingAdd site.pc 1)
              ((c.markPc site.pc).x.lsTop + (c.markPc site.pc).x.pushed)).spot := caller
          refine ready.enter ?_ resumed enters.frames
          show P entered.x.spot
          rw [enters.x]
          exact entry (c.markPc site.pc) _ _ ps f progs enters.found
      next => exact ready.with (next _ same.prnum ready.x) rfl
      all_goals exact ready

end Site

/-! ## The loop -/

section Fetched

variable {core : Core} {V : View} {code : Arr Stmt} {pc : Nat} {st : Stmt}

/-- A statement the view finds is one of a loaded progs. -/
lemma Core.Runs.fetched (runs : core.Runs V) (loaded : ∃ ps ∈ core.progs, code = ps.code)
    (found : V.stmtAt code pc = some st) :
    ∃ ps ∈ core.progs, code = ps.code ∧ ps.Linked core.mem.s.size ∧
      st.Linked ps.gbase (ps.numGlobals + globalsTail) ps.program.fileStatements := by
  obtain ⟨ps, mem, rfl⟩ := loaded
  have linked := runs.linked.progs ps mem
  rw [stmtAt_eq] at found
  obtain ⟨lt, rfl⟩ := Arr.get?_eq_some.mp found
  exact ⟨ps, mem, rfl, linked, linked.stmt runs.small lt⟩

/-- A jump stays in the code. -/
lemma Core.Runs.jump_lt (runs : core.Runs V) (loaded : ∃ ps ∈ core.progs, code = ps.code)
    (found : V.stmtAt code pc = some st) {s : Slot} (jump : st.op.operand s = .jump) :
    st.operand s < code.size := by
  obtain ⟨ps, -, rfl, linked, placed⟩ := runs.fetched loaded found
  have le := placed.jump s jump
  have size := linked.size_eq
  omega

/-- So does a statement that goes on to the next. -/
lemma Core.Runs.next_lt (runs : core.Runs V) (loaded : ∃ ps ∈ core.progs, code = ps.code)
    (found : V.stmtAt code pc = some st) (real : st.op ≠ .jumpOutOfRange)
    (within : V = .window → pc < codeWindow) : wrappingAdd pc 1 < code.size := by
  obtain ⟨next, -⟩ := runs.succ loaded found real
  obtain ⟨ps, mem, rfl⟩ := loaded
  have linked := runs.linked.progs ps mem
  rw [stmtAt_eq] at found
  obtain ⟨lt, rfl⟩ := Arr.get?_eq_some.mp found
  have succ := linked.succ_lt lt real
  have size := linked.size_le
  cases V with
  | whole =>
    have next : wrappingAdd pc 1 = pc + 1 := next
    rw [next]
    exact succ
  | window =>
    have index : View.index .window pc = pc := Nat.mod_eq_of_lt (within rfl)
    rw [index] at succ
    rw [show wrappingAdd pc 1 = pc + 1 from Nat.mod_eq_of_lt (by omega)]
    exact succ

end Fetched

/-- The loop is at a spot. -/
def At.Aimed (R : List ProgsState → Spot → Prop) (exitDepth : Nat) (a : At) : Prop :=
  (a.core.contextAt a.pc).Spotted (R a.core.progs) exitDepth

/-- What the loop keeps in a run from `core`: it moves, its variables are up to date, and it is at a
spot above its exit depth. -/
structure At.Going (R : List ProgsState → Spot → Prop) (exitDepth : Nat) (base : Context) (core : Core)
    (a : At) : Prop where
  moved : core.Moved a.core
  loaded : a.Loaded
  here : a.core.x.prnum = a.loc.prnum
  aimed : a.Aimed R exitDepth
  atop : a.core.Over core.resets exitDepth base

/-- The loop stopped at a spot, or returned from one. -/
def Stop.Aimed (R : List ProgsState → Spot → Prop) (exitDepth : Nat) (start : Core) (stop : Stop) :
    Prop :=
  (stop.exit ≠ .returned ∧ stop.core.context.Spotted (R stop.core.progs) exitDepth) ∨
    (stop.exit = .returned ∧ start.ReturnsFrom (R start.progs) exitDepth stop.core)

/-- A run stopped at a spot above its exit depth, or returned from one to it. -/
def Stop.Ended (R : List ProgsState → Spot → Prop) (exitDepth : Nat) (base : Context) (start : Core)
    (stop : Stop) : Prop :=
  (stop.exit ≠ .returned ∧ stop.core.context.Spotted (R start.progs) exitDepth) ∨
    (stop.exit = .returned ∧ ∃ last : Core, start.Moved last ∧
      last.Over start.resets exitDepth base ∧ last.context.Spotted (R start.progs) exitDepth ∧
      stop.core = last.unwind exitDepth)

/-- A stop at a spot ends at one, or returned from one. -/
lemma Stop.Aimed.ended {R : List ProgsState → Spot → Prop} {exitDepth : Nat} {base : Context}
    {core mid : Core} {stop : Stop} (moved : core.Moved mid) (atop : mid.Over core.resets exitDepth base)
    (more : mid.Moved stop.core) (aimed : stop.Aimed R exitDepth mid) :
    stop.Ended R exitDepth base core := by
  have progs : mid.progs = core.progs := congrArg Core.Fixed.progs moved.fixed
  rcases aimed with ⟨other, spotted⟩ | ⟨returned, le, last, rest, same, spotted, left⟩
  · rw [show stop.core.progs = core.progs from (congrArg Core.Fixed.progs more.fixed).trans progs]
      at spotted
    exact .inl ⟨other, spotted⟩
  · rw [progs] at spotted
    have atop := atop.same same
    have deep := atop.deep
    have length := last.length_leave
    rw [left] at le
    refine .inr ⟨returned, last, moved.trans rest, atop, spotted, left.trans ?_⟩
    rw [Core.unwind, show last.frames.length - exitDepth = 1 by omega]
    rfl

section Loop

variable {R : List ProgsState → Spot → Prop} (rule : SpotRule R) {F : FloatOps} {V : View}
variable {trace : Bool} {exitDepth : Nat} {core start' : Core}

/-- The loop is aimed, or stopped so. -/
def AimedAt (R : List ProgsState → Spot → Prop) (exitDepth : Nat) (start : Core) :
    Status At Stop → Prop :=
  Status.Holds (At.Aimed R exitDepth) (Stop.Aimed R exitDepth start)

/-- A loop that stops without returning stops at a spot. -/
lemma AimedAt.stop {exit : Exit} {budget : Nat} (other : exit ≠ .returned)
    (h : core.context.Spotted (R core.progs) exitDepth) :
    AimedAt R exitDepth start' (.done ⟨exit, core, budget⟩) :=
  .inl ⟨other, h⟩

/-- A loop at a spot is so for every core that moves to its core. -/
lemma AimedAt.trans {st : Status At Stop} (moved : start'.Moved core)
    (same : start'.context.Same core.context) (h : AimedAt R exitDepth core st) :
    AimedAt R exitDepth start' st := by
  cases st with
  | running a => exact h
  | done stop =>
    refine h.imp_right fun ⟨returned, le, last, rest, still, spotted, left⟩ =>
      ⟨returned, le, last, moved.trans rest, same.trans still, ?_, left⟩
    rw [← show core.progs = start'.progs from congrArg Core.Fixed.progs moved.fixed]
    exact spotted

/-- Reloading the registers stays at a spot. -/
lemma aimedAt_reload (V : View) (budget cachedPr : Nat) (cached : Arr Stmt)
    (h : core.context.Spotted (R core.progs) exitDepth) :
    AimedAt R exitDepth start' (reload V core budget cachedPr cached) := by
  unfold reload
  dsimp only
  split
  next => exact .stop nofun h
  next ps _ =>
    generalize (if cachedPr ≠ core.x.prnum then ps.code else cached) = code
    split
    next => exact .stop nofun h
    next =>
      split
      next => exact .stop nofun h
      next => exact h

/-- A run starts at a spot. -/
lemma aimedAt_start (V : View) (budget : Nat) (h : core.context.Spotted (R core.progs) exitDepth) :
    AimedAt R exitDepth start' (start V core budget) := by
  unfold start
  split
  next => exact .stop nofun h
  next => exact aimedAt_reload V budget _ _ h

/-- What follows a statement that is paid for. -/
lemma aimedAt_proceed {a : At} {st : Stmt} {r : Except ErrorKind After × Core} (moved : a.core.Moved r.2)
    (goes : (a.site V st).GoesOn (R a.core.progs) exitDepth a.core r) :
    AimedAt R exitDepth a.core (proceed V a r) := by
  have progs : r.2.progs = a.core.progs := congrArg Core.Fixed.progs moved.fixed
  obtain ⟨result, core⟩ := r
  unfold proceed
  cases result with
  | error kind =>
    rw [← progs] at goes
    exact .stop nofun goes
  | ok after =>
    cases after with
    | next =>
      obtain ⟨rfl, goes⟩ := goes
      exact goes
    | goto target =>
      obtain ⟨rfl, goes⟩ := goes
      exact goes
    | reload =>
      rw [← progs] at goes
      exact aimedAt_reload V _ _ _ goes
    | returned => exact .inr ⟨rfl, goes⟩
    | builtin slot func =>
      rw [← progs] at goes
      exact .stop nofun goes

include rule

/-- A statement leads to a spot, or returns from one. -/
lemma aimedAt_execute {a : At} (runs : a.core.Runs V) (l : a.core.mem.Regions) (loaded : a.Loaded)
    (prnum : a.core.x.prnum = a.loc.prnum) (spotted : a.Aimed R exitDepth) :
    AimedAt R exitDepth a.core (execute F V trace exitDepth a) := by
  unfold execute
  split
  next => exact .stop nofun spotted
  next st found =>
    have placed : (statement F (a.site V st) exitDepth).All (a.site V st).Placed
      ((a.site V st).Ends exitDepth) := placed_statement
    have switches : (a.site V st).Names .a → ∀ s, R a.core.progs s →
        R a.core.progs { s with switchRef := st.a } := by
      intro names s h
      obtain ⟨ps, mem, -, -, linked⟩ := runs.fetched loaded.loaded found
      exact rule.switches st.a mem (linked.names .a names) h
    have within (window : V = .window) : a.pc < codeWindow := rule.below (runs.fits window) spotted.x
    have ran := Site.spotted_run switches F placed spotted
    have same : a.core.context.Same _ := Site.same_run F placed
    have moved := (a.site V st).run_moved l F (statement F (a.site V st) exitDepth)
    have ends := fun v => Prog.run_value (h := (a.site V st).handle F) (s := a.core) (v := v) placed
    dsimp only
    generalize (statement F (a.site V st) exitDepth).run ((a.site V st).handle F) a.core = r
      at ran same moved ends ⊢
    have progs : r.2.progs = a.core.progs := congrArg Core.Fixed.progs moved.fixed
    have here : r.2.x.prnum = a.loc.prnum := same.prnum.trans prnum
    -- The next statement is in the code of the progs the loop is in, and so are jump targets.
    have next (real : st.op ≠ .jumpOutOfRange) (s : Spot) (same : s.prnum = r.2.x.prnum)
        (h : R a.core.progs s) : R a.core.progs { s with pc := wrappingAdd a.pc 1 } :=
      rule.goes _ (same.trans here ▸ loaded.toCached)
        (runs.next_lt loaded.loaded found real within) h
    have jumps (slot : Slot) (jump : st.op.operand slot = .jump) (s : Spot)
        (same : s.prnum = r.2.x.prnum) (h : R a.core.progs s) :
        R a.core.progs { s with pc := st.operand slot } :=
      rule.goes _ (same.trans here ▸ loaded.toCached) (runs.jump_lt loaded.loaded found jump) h
    have entry (c : Core) (prnum index : Nat) (ps : ProgsState) (f : QcFunc)
        (same : c.progs = r.2.progs) (h : c.lookupFunc prnum index = some (ps, f)) :
        R a.core.progs ⟨prnum, f.entry, 0⟩ := by
      have found : a.core.lookupFunc prnum index = some (ps, f) := by
        rw [← h]
        unfold Core.lookupFunc
        rw [same.trans progs]
      exact rule.entry runs.linked runs.small found
    obtain ⟨result, core⟩ := r
    cases result with
    | error kind =>
      rw [← progs] at ran
      exact .stop nofun ran
    | ok outcome =>
      have ended := ends outcome rfl
      cases outcome with
      | next =>
        have on : (core.contextAt (wrappingAdd a.pc 1)).Spotted (R a.core.progs) exitDepth :=
          ran.with (next ended _ rfl ran.x) rfl
        rw [← progs] at on
        exact on
      | stateOp op =>
        have on : (core.contextAt (wrappingAdd a.pc 1)).Spotted (R a.core.progs) exitDepth :=
          ran.with (next ended _ rfl ran.x) rfl
        rw [← progs] at on
        exact .stop nofun on
      | charge after =>
        unfold charge
        dsimp only
        split
        next =>
          rw [← progs] at ran
          exact .stop nofun ran
        next =>
          have paid := Site.goesOn_charged switches F ended.2 (fun _ => rule.reset) (next ended.1) jumps
            (moved.regions l) entry ran
          have on := (a.site V st).run_moved (moved.regions l) F after
          rw [← progs] at paid
          exact (aimedAt_proceed (a := ⟨core, a.loc, a.pc, a.budget - 1⟩) on paid).trans moved same

/-- A statement goes on at a spot. -/
lemma aimedAt_step {a : At} (runs : a.core.Runs V) (l : a.core.mem.Regions) (loaded : a.Loaded)
    (prnum : a.core.x.prnum = a.loc.prnum) (aimed : a.Aimed R exitDepth) :
    AimedAt R exitDepth a.core (step F V trace exitDepth a) := by
  unfold step
  split
  next => exact .stop nofun aimed
  next =>
    have untraced : a.core.Plain (a.core.flagged false) := ⟨rfl, rfl, rfl, rfl⟩
    have cleared : a.core.Moved (a.core.flagged false) := .of_eq rfl rfl
    have same : a.core.context.Same (a.core.flagged false).context := .refl a.core.context
    have executed : AimedAt R exitDepth (a.core.flagged false)
        (execute F V trace exitDepth ⟨a.core.flagged false, a.loc, a.pc, a.budget⟩) :=
      aimedAt_execute rule (runs.plain untraced) l (loaded.of_eq rfl rfl) prnum aimed
    dsimp only
    split
    next => exact AimedAt.trans cleared same executed
    next => exact aimedAt_execute rule runs l loaded prnum aimed

/-- Wherever a run is, it is at a spot above its exit depth. -/
lemma going_runFor {base : Context} (runs : core.Runs V) (l : core.mem.Regions)
    (h : core.context.Spotted (R core.progs) exitDepth) (o : core.Over core.resets exitDepth base)
    (budget n : Nat) :
    (Status.runFor (step F V trace exitDepth) n (start V core budget)).Holds
      (At.Going R exitDepth base core) (Stop.Ended R exitDepth base core) := by
  refine Status.runFor_holds (fun a h => ?_) n ?_
  · have regions := h.moved.regions l
    have next := @aimedAt_step R rule F V trace exitDepth a (runs.plain h.moved.plain) regions h.loaded
      h.here h.aimed
    have more := @movedFrom_step F V trace exitDepth a regions
    have still := @loadedAt_step F V trace exitDepth a h.loaded regions
    have located := @locatedAt_step F V trace exitDepth a h.here
    have above := @overAt_step F V trace exitDepth core.resets base a regions h.moved.resets h.atop
    cases e : step F V trace exitDepth a with
    | running b =>
      rw [e] at next more still above located
      exact ⟨h.moved.trans more, still, located, next, above⟩
    | done stop =>
      rw [e] at next more
      exact Stop.Aimed.ended h.moved h.atop more next
  · have moved := movedFrom_start V core budget
    have loaded := loadedAt_start V core budget
    have here := @locatedAt_start core V budget
    have aimed := @aimedAt_start R exitDepth core core V budget h
    have above := @overAt_start exitDepth core.resets base core core V budget o
    cases e : start V core budget with
    | running b =>
      rw [e] at moved loaded here aimed above
      exact ⟨moved, loaded, here, aimed, above⟩
    | done stop =>
      rw [e] at moved aimed
      exact Stop.Aimed.ended (.refl core) o moved aimed

/-- A run stops at a spot above its exit depth, or returns from one to it. -/
theorem aimed_run {base : Context} (runs : core.Runs V) (l : core.mem.Regions)
    (h : core.context.Spotted (R core.progs) exitDepth) (o : core.Over core.resets exitDepth base)
    (budget : Nat) :
    (run F V trace exitDepth core budget).Ended R exitDepth base core := by
  obtain ⟨n, done⟩ := @Core.Runs.run_done F V trace exitDepth core runs l budget
  have ended := @going_runFor R rule F V trace exitDepth core base runs l h o budget n
  rw [done] at ended
  exact ended

end Loop

end Qcvm

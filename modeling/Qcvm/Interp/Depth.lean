import Qcvm.Interp.Alike
import Qcvm.Vm.Context

/-!
# What a run restores

The interpreter runs with an exit depth, the number of frames below the function it was started for.
Whatever runs, the frames below stay as they are: unwinding to the exit depth comes to the same
context from every state of a run, and a run that returns ends in that context.
-/

namespace Qcvm

open Lib

namespace Core

variable {core : Core}

/-! ## Operations that leave the context alone -/

/-- A warning keeps the context. -/
lemma context_warn (core : Core) (kind : WarningKind) : (core.warn kind).context = core.context := by
  unfold warn
  dsimp only
  split <;> rfl

/-- The warning of a bad field access keeps the context. -/
lemma context_badFieldAccess (core : Core) (e f : Word) :
    (core.badFieldAccess e f).context = core.context := by
  unfold badFieldAccess
  split <;> exact context_warn _ _

/-- A store to a field keeps the context. -/
lemma context_storeField (core : Core) (e f : Word) (vs : List Word) :
    (core.storeField e f vs).context = core.context := by
  unfold storeField
  split
  next => exact context_warn _ _
  next =>
    split
    next => exact context_warn _ _
    next => split <;> first | exact context_warn _ _ | rfl

/-- Reading a string, with a warning for a bad one, keeps the context. -/
lemma context_strOrWarn (core : Core) (r : Word) : (core.strOrWarn r).2.context = core.context := by
  unfold strOrWarn
  split
  next => exact context_warn _ _
  next => rfl

/-- A test of strings for equality keeps the context. -/
lemma context_stringsEqual (core : Core) (a b : Word) :
    (core.stringsEqual a b).2.context = core.context := by
  unfold stringsEqual
  split
  next => rfl
  next =>
    split
    next => exact context_strOrWarn _ _
    next => exact (context_strOrWarn _ _).trans (context_strOrWarn _ _)

/-- A comparison of strings keeps the context. -/
lemma context_stringCompare (core : Core) (F : FloatOps) (ne : Bool) (a b : Word) :
    (core.stringCompare F ne a b).2.context = core.context := by
  have compared := core.context_stringsEqual a b
  unfold stringCompare
  dsimp only
  split
  next => exact compared
  next => split <;> exact compared

/-- The slow path of a store through a pointer keeps the context. -/
lemma context_ptrWriteSlow (core : Core) (base offset addr : Word) (bytes : List Byte)
    (err : WriteError) : (core.ptrWriteSlow base offset addr bytes err).2.context = core.context := by
  unfold ptrWriteSlow
  split
  next => rfl
  next =>
    split
    next =>
      dsimp only
      split
      next => rfl
      next => split <;> rfl
    next => split <;> rfl

/-- A store through a pointer keeps the context. -/
lemma context_ptrWrite (core : Core) (base offset : Word) (bytes : List Byte) :
    (core.ptrWrite base offset bytes).2.context = core.context := by
  unfold ptrWrite
  dsimp only
  split
  next => rfl
  next => exact context_warn _ _
  next => exact context_ptrWriteSlow _ _ _ _ _ _

/-- A compound store through a pointer keeps the context. -/
lemma context_compoundPointerStore (core : Core) (F : FloatOps) (op : PointerStore) (oa ob oc : Nat) :
    (core.compoundPointerStore F op oa ob oc).2.context = core.context := by
  unfold compoundPointerStore
  dsimp only
  split
  next => rfl
  next => exact context_warn _ _
  next => rfl
  next => rfl

/-- Storing the statement number keeps the context but for it. -/
lemma same_markPc (core : Core) (pc : Nat) : core.context.Same (core.markPc pc).context :=
  ⟨rfl, rfl, rfl, rfl, rfl, rfl⟩

/-- Drawing a random number keeps the context. -/
lemma same_rng (core : Core) (rng : Rng) : core.context.Same { core with rng := rng }.context := .refl _

/-- What leaves the context alone once the loop's `pc` is stored. -/
lemma same_marked {core' : Core} {pc : Nat} (e : core'.context = (core.markPc pc).context) :
    core.context.Same core'.context :=
  e ▸ core.same_markPc pc

end Core

namespace Site

variable {site : Site} {core : Core}

/-- A store to a field, inline or not, keeps the context. -/
lemma same_storeField (words : Nat) : core.context.Same (site.storeField words core).context := by
  unfold storeField
  dsimp only
  split
  next => exact .refl _
  next => exact Core.same_marked (Core.context_storeField _ _ _ _)

/-- A store through a pointer, inline or not, keeps the context. -/
lemma same_storeThrough (base offset : Word) (bytes : List Byte) :
    core.context.Same (site.storeThrough base offset bytes core).2.context := by
  unfold storeThrough
  split
  next => exact .refl _
  next => exact Core.same_marked (Core.context_ptrWrite _ _ _ _)

/-- A load through a pointer, inline or not, keeps the context. -/
lemma same_loadThrough (words : Nat) (base offset : Word) :
    core.context.Same (site.loadThrough words base offset core).2.context := by
  unfold loadThrough
  split
  next => exact .refl _
  next =>
    dsimp only
    split
    next => exact core.same_markPc site.pc
    next => exact core.same_markPc site.pc

/-- A compound store, inline or not, keeps the context. -/
lemma same_compound (F : FloatOps) (op : Compound) :
    core.context.Same (site.compound F op core).2.context := by
  unfold compound
  dsimp only
  split
  next => exact .refl _
  next => exact Core.same_marked (Core.context_compoundPointerStore _ _ _ _ _ _)

/-- An operation that neither enters nor leaves a function: the same function runs on. -/
lemma same_handle (F : FloatOps) {f : Micro} (placed : site.Placed f) :
    core.context.Same (site.handle F f core).2.context := by
  cases f with
  | get | memGet | getGlobal | getRef | look | set | memSet | setGlobal | setArgc => exact .refl _
  | rand15 => exact Core.same_rng core _
  | setSwitch | setPushed => exact ⟨rfl, rfl, rfl, rfl, rfl, rfl⟩
  | warn kind => exact Core.same_marked (Core.context_warn _ _)
  | badFieldAccess e f => exact Core.same_marked (Core.context_badFieldAccess _ _ _)
  | storeField words => exact same_storeField words
  | storeThrough base offset bytes => exact same_storeThrough base offset bytes
  | ptrWrite base offset bytes => exact Core.same_marked (Core.context_ptrWrite _ _ _ _)
  | loadThrough words base offset => exact same_loadThrough words base offset
  | ptrRead => exact core.same_markPc site.pc
  | compound op => exact same_compound F op
  | pointerStore op => exact Core.same_marked (Core.context_compoundPointerStore _ _ _ _ _ _)
  | strOrWarn r => exact Core.same_marked (Core.context_strOrWarn _ _)
  | stringsEqual a b => exact Core.same_marked (Core.context_stringsEqual _ _ _)
  | stringCompare ne a b => exact Core.same_marked (Core.context_stringCompare _ _ _ _ _)
  | enter | leave => exact placed.elim

/-- Operations that neither enter nor leave a function run in the same one. -/
lemma same_run (F : FloatOps) {α : Type} {p : Arm α} {Q : α → Prop} (placed : p.All site.Placed Q) :
    core.context.Same (p.run (site.handle F) core).2.context :=
  Prog.run_preserves (I := fun c : Core => core.context.Same c.context) placed
    (fun _ _ placed same => same.trans (same_handle F placed)) (.refl _)

end Site

/-- Unwinding to a depth comes to a context, and there is something to unwind. -/
structure Core.Over (reset : Bool) (depth : Nat) (base : Context) (core : Core) : Prop where
  deep : depth < core.frames.length
  unwinds : core.context.unwind reset depth = base

/-- A core that returns to a depth: it is the last one above it that leaves its function. -/
def Core.Returns (reset : Bool) (depth : Nat) (base : Context) (start core : Core) : Prop :=
  ∃ last : Core, start.Moved last ∧ last.Over reset depth base ∧ last.frames.length = depth + 1 ∧
    core = last.leave

namespace Core

variable {reset : Bool} {depth : Nat} {base : Context} {start core core' : Core}

/-- What unwinding comes to depends on the context alone. -/
lemma Over.same (o : core.Over reset depth base) (s : core.context.Same core'.context) :
    core'.Over reset depth base := by
  have frames : core'.frames = core.frames := s.frames
  refine ⟨?_, (s.unwind o.deep).trans o.unwinds⟩
  rw [frames]
  exact o.deep

/-- Above its depth a context is as good as the same one with another `pc`. -/
lemma Over.resumeAt (o : core.Over reset depth base) (pc : Nat) :
    (core.context.resumeAt reset pc).unwind reset depth = base := by
  have same : core.context.Same (core.context.resumeAt reset pc) := ⟨rfl, rfl, rfl, rfl, rfl, rfl⟩
  exact (same.unwind o.deep).trans o.unwinds

/-- A function that is entered from a context is above the depth of it. -/
lemma Enters.over {prnum index resumePc : Nat} {ps : ProgsState} {f : QcFunc} (reset : Bool)
    (e : core.Enters prnum index resumePc ps f core') (le : depth ≤ core.frames.length) :
    core'.Over reset depth ((core.context.resumeAt reset resumePc).unwind reset depth) := by
  have deep : depth < core'.context.frames.length := by
    show depth < core'.frames.length
    rw [e.frames, List.length_cons]
    omega
  refine ⟨deep, ?_⟩
  rw [← Context.unwind_leave deep, e.leave]

/-- Entering a function adds a frame that unwinding takes off again. -/
lemma Over.enter (o : core.Over reset depth base) {prnum index resumePc : Nat}
    (e : core.enter prnum index resumePc = (.ok (), core')) : core'.Over reset depth base := by
  obtain ⟨ps, f, entered⟩ := enters e
  have above := entered.over reset (Nat.le_of_lt o.deep)
  rw [o.resumeAt] at above
  exact above

/-- A core that returns does so for every core that moves to it. -/
lemma Returns.trans {mid : Core} (moved : start.Moved mid) (r : Returns reset depth base mid core) :
    Returns reset depth base start core := by
  obtain ⟨last, rest, h⟩ := r
  exact ⟨last, moved.trans rest, h⟩

/-- What returns to a depth has unwound to it. -/
lemma Returns.unwind (r : Returns reset depth base start core) :
    ∃ last : Core, start.Moved last ∧ last.Over reset depth base ∧ core = last.unwind depth := by
  obtain ⟨last, moved, atop, length, rfl⟩ := r
  refine ⟨last, moved, atop, ?_⟩
  rw [Core.unwind, length, Nat.add_sub_cancel_left]
  rfl

end Core

section Runs

variable {F : FloatOps} {V : View} {trace : Bool} {exitDepth : Nat} {reset : Bool} {base : Context}
variable {site : Site} {start' core core' : Core}

/-- A loop that started from a core stops above its exit depth, or returns to it. -/
def Stop.Lands (reset : Bool) (exitDepth : Nat) (base : Context) (start : Core) (stop : Stop) : Prop :=
  (stop.exit ≠ .returned ∧ stop.core.Over reset exitDepth base) ∨
    (stop.exit = .returned ∧ Core.Returns reset exitDepth base start stop.core)

/-- The loop is above its exit depth until it returns. -/
def OverAt (reset : Bool) (exitDepth : Nat) (base : Context) (start : Core) : Status At Stop → Prop :=
  Status.Holds (fun a => a.core.Over reset exitDepth base) (Stop.Lands reset exitDepth base start)

/-- A loop above its exit depth is so for every core that moves to its core. -/
lemma OverAt.trans {st : Status At Stop} (moved : start'.Moved core)
    (o : OverAt reset exitDepth base core st) : OverAt reset exitDepth base start' st := by
  cases st with
  | running a => exact o
  | done stop => exact o.imp_right fun ⟨returned, r⟩ => ⟨returned, r.trans moved⟩

/-- A loop that stops without returning stops above its exit depth. -/
lemma Core.Over.stop (o : core.Over reset exitDepth base) {exit : Exit} {budget : Nat}
    (other : exit ≠ .returned) : OverAt reset exitDepth base start' (.done ⟨exit, core, budget⟩) :=
  .inl ⟨other, o⟩

/-- Storing the statement number stays above the exit depth. -/
lemma Core.Over.markPc (o : core.Over reset exitDepth base) (pc : Nat) :
    (core.markPc pc).Over reset exitDepth base :=
  o.same (core.same_markPc pc)

/-- Reporting a statement stays above the exit depth. -/
lemma Core.Over.traced (o : core.Over reset exitDepth base) (pc : Nat) (traced : Bool) :
    { core.markPc pc with traced := traced }.Over reset exitDepth base :=
  o.same ⟨rfl, rfl, rfl, rfl, rfl, rfl⟩

/-- A placed arm stays above the exit depth. -/
lemma Core.Over.run {α : Type} {p : Arm α} {Q : α → Prop} (o : core.Over reset exitDepth base)
    (placed : p.All site.Placed Q) : (p.run (site.handle F) core).2.Over reset exitDepth base :=
  Prog.run_preserves (I := Core.Over reset exitDepth base) placed
    (fun _ _ placed o => o.same (Site.same_handle F placed)) o

/-- A call keeps what is below, whether the function can be entered or not. -/
lemma Core.Over.calls {f : Micro} (o : core.Over reset exitDepth base) (calls : site.Calls f) :
    (site.handle F f core).2.Over reset exitDepth base := by
  rcases calls with placed | ⟨prnum, index, rfl⟩
  · exact o.same (Site.same_handle F placed)
  · show ((core.markPc site.pc).enter prnum index (wrappingAdd site.pc 1)).2.Over reset exitDepth base
    have marked := o.markPc site.pc
    rcases e : (core.markPc site.pc).enter prnum index (wrappingAdd site.pc 1) with ⟨_ | _, core'⟩
    · obtain ⟨m, rfl, -⟩ := Core.enter_error e
      exact marked.same (.refl _)
    · exact marked.enter e

/-- Leaving a function takes off one frame. -/
lemma Core.length_leave (core : Core) : core.leave.frames.length = core.frames.length - 1 := by
  have length := Context.length_leave core.resets core.context
  rw [← core.context_leave] at length
  exact length

/-- Leaving a function stays above the depth, or returns to it. -/
lemma Core.Over.leave (o : core.Over reset exitDepth base) (same : core.resets = reset)
    (moved : start'.Moved core) :
    (exitDepth < core.leave.frames.length ∧ core.leave.Over reset exitDepth base) ∨
      (core.leave.frames.length ≤ exitDepth ∧ Core.Returns reset exitDepth base start' core.leave) := by
  have deep := o.deep
  have length := core.length_leave
  have left := core.context_leave
  rw [same] at left
  rcases Nat.lt_or_ge exitDepth core.leave.frames.length with above | le
  · refine .inl ⟨above, above, ?_⟩
    rw [left, Context.unwind_leave o.deep]
    exact o.unwinds
  · exact .inr ⟨le, core, moved, o, by omega, rfl⟩

/-- What is left of a statement returns to the exit depth, or stays above it. -/
lemma Core.Over.charged {after : Arm After} (o : core.Over reset exitDepth base)
    (l : core.mem.Regions) (same : core.resets = reset) (charged : site.Charged exitDepth after) :
    ((after.run (site.handle F) core).1 ≠ .ok .returned ∧
        (after.run (site.handle F) core).2.Over reset exitDepth base) ∨
      ((after.run (site.handle F) core).1 = .ok .returned ∧
        Core.Returns reset exitDepth base core (after.run (site.handle F) core).2) := by
  cases charged with
  | next => exact .inl ⟨nofun, o⟩
  | goto => exact .inl ⟨nofun, o⟩
  | leave names =>
    have copied := o.run (F := F) (all_return names)
    have moved := site.run_moved l F (Arm.copyToGlobals .a ofsReturn)
    unfold Arm.leaveFunction
    rw [Prog.bind_eq, Prog.run_bind]
    split
    next =>
      have last := copied.markPc site.pc
      have moved := moved.trans (Core.moved_markPc _ site.pc)
      have kept : (Core.markPc _ site.pc).resets = reset := moved.resets.trans same
      simp only [Prog.run_call, Prog.pure_eq, Prog.run_pure]
      rcases last.leave kept moved with ⟨above, atop⟩ | ⟨le, returns⟩
      · refine .inl ⟨fun returned => ?_, atop⟩
        cases (if_neg (Nat.not_le_of_lt above)).symm.trans (Except.ok.inj returned)
      · exact .inr ⟨congrArg Except.ok (if_pos le), returns⟩
    next => exact .inl ⟨nofun, copied⟩
  | dispatch call =>
    have calls := placed_dispatch (names_call call)
    refine .inl ⟨fun returned => ?_, Prog.run_preserves (I := Core.Over reset exitDepth base) calls
      (fun _ _ calls o => o.calls calls) o⟩
    rcases Prog.run_value calls returned with e | ⟨_, _, e⟩ <;> cases e

/-- Reloading the registers stays above the exit depth. -/
lemma overAt_reload (V : View) (budget cachedPr : Nat) (cached : Arr Stmt)
    (o : core.Over reset exitDepth base) :
    OverAt reset exitDepth base start' (reload V core budget cachedPr cached) := by
  unfold reload
  dsimp only
  split
  next => exact o.stop nofun
  next ps _ =>
    generalize (if cachedPr ≠ core.x.prnum then ps.code else cached) = code
    split
    next => exact o.stop nofun
    next =>
      split
      next => exact (o.markPc _).stop nofun
      next => exact o

/-- A run starts above its exit depth. -/
lemma overAt_start (V : View) (budget : Nat) (o : core.Over reset exitDepth base) :
    OverAt reset exitDepth base start' (start V core budget) := by
  unfold start
  split
  next => exact o.stop nofun
  next => exact overAt_reload V budget _ _ o

/-- Going on after a statement stays above the exit depth or returns to it. -/
lemma overAt_proceed (a : At) {r : Except ErrorKind After × Core}
    (lands : (r.1 ≠ .ok .returned ∧ r.2.Over reset exitDepth base) ∨
      (r.1 = .ok .returned ∧ Core.Returns reset exitDepth base start' r.2)) :
    OverAt reset exitDepth base start' (proceed V a r) := by
  have atop (other : r.1 ≠ .ok .returned) : r.2.Over reset exitDepth base :=
    (lands.resolve_right fun returned => other returned.1).2
  unfold proceed
  dsimp only
  split
  next e => exact ((atop (by rw [e]; nofun)).markPc _).stop nofun
  next e => exact atop (by rw [e]; nofun)
  next e => exact atop (by rw [e]; nofun)
  next e => exact overAt_reload _ _ _ _ (atop (by rw [e]; nofun))
  next e => exact .inr ⟨rfl, (lands.resolve_left fun other => other.1 e).2⟩
  next e => exact ((atop (by rw [e]; nofun)).markPc _).stop nofun

/-- A statement stays above the exit depth or returns to it. -/
lemma overAt_execute {a : At} (l : a.core.mem.Regions) (same : a.core.resets = reset)
    (o : a.core.Over reset exitDepth base) :
    OverAt reset exitDepth base a.core (execute F V trace exitDepth a) := by
  unfold execute
  split
  next => exact (o.markPc _).stop nofun
  next st _ =>
    have ran := o.run (F := F) (@placed_statement F (a.site V st) exitDepth)
    have moved := (a.site V st).run_moved l F (statement F (a.site V st) exitDepth)
    dsimp only
    split
    next => exact (ran.markPc _).stop nofun
    next => exact ran
    next => exact (ran.markPc _).stop nofun
    next after ended =>
      have charged := (Prog.run_value placed_statement ended).2
      unfold charge
      dsimp only
      split
      next => exact (ran.traced _ _).stop nofun
      next =>
        have paid := ran.charged (F := F) (moved.regions l) (moved.resets.trans same) charged
        exact (overAt_proceed _ paid).trans moved

/-- A statement keeps what is below the exit depth. -/
lemma overAt_step {a : At} (l : a.core.mem.Regions) (same : a.core.resets = reset)
    (o : a.core.Over reset exitDepth base) :
    OverAt reset exitDepth base a.core (step F V trace exitDepth a) := by
  unfold step
  split
  next => exact (o.traced _ _).stop nofun
  next =>
    dsimp only
    split
    next =>
      have o' : { a.core with traced := false }.Over reset exitDepth base := o.same (.refl _)
      have cleared : a.core.Moved { a.core with traced := false } := .of_eq rfl rfl
      exact (overAt_execute (a := { a with core := { a.core with traced := false } }) l same o').trans
        cleared
    next => exact overAt_execute l same o

/-- A run keeps what is below its exit depth, to which it may return. -/
theorem lands_run (l : core.mem.Regions) (o : core.Over core.resets exitDepth base) (budget : Nat) :
    (run F V trace exitDepth core budget).Lands core.resets exitDepth base core := by
  have carries {mid : Core} {st : Status At Stop} (moved : core.Moved mid) (from' : MovedFrom mid st)
      (atop : OverAt core.resets exitDepth base mid st) : st.Holds
        (fun b => core.Moved b.core ∧ b.core.Over core.resets exitDepth base)
        (Stop.Lands core.resets exitDepth base core) := by
    have atop := atop.trans moved
    cases st with
    | running b => exact ⟨moved.trans from', atop⟩
    | done stop => exact atop
  have keeps (a : At) (h : core.Moved a.core ∧ a.core.Over core.resets exitDepth base) :
      (step F V trace exitDepth a).Holds
        (fun b => core.Moved b.core ∧ b.core.Over core.resets exitDepth base)
        (Stop.Lands core.resets exitDepth base core) :=
    carries h.1 (movedFrom_step (h.1.regions l)) (overAt_step (h.1.regions l) h.1.resets h.2)
  have h := Status.runFor_holds keeps (runBound core budget)
    (carries (.refl core) (movedFrom_start V core budget) (overAt_start V budget o))
  unfold run
  split
  next stop e =>
    rw [e] at h
    exact h
  next a e =>
    rw [e] at h
    exact h.2.stop nofun

end Runs

/-! ## The progs the loop is in -/

namespace Site

variable {site : Site} {core : Core} {exitDepth : Nat}

/-- What is left of a statement that goes on in the same function does nothing. -/
lemma Charged.stays {F : FloatOps} {after : Arm After} (charged : site.Charged exitDepth after) :
    (after.run (site.handle F) core).2 = core ∨ ∀ ended,
      (after.run (site.handle F) core).1 = .ok ended → ended ≠ .next ∧ ∀ target, ended ≠ .goto target := by
  cases charged with
  | next => exact .inl rfl
  | goto => exact .inl rfl
  | leave =>
    refine .inr fun ended e => ?_
    unfold Arm.leaveFunction at e
    rw [Prog.bind_eq, Prog.run_bind] at e
    split at e
    next =>
      simp only [Prog.run_call, Prog.pure_eq, Prog.run_pure, Except.ok.injEq] at e
      rw [← e]
      split
      next => exact ⟨nofun, nofun⟩
      next => exact ⟨nofun, nofun⟩
    next => cases e
  | dispatch =>
    refine .inr fun ended e => ?_
    rw [run_dispatch] at e
    split at e
    next core' _ =>
      unfold called at e
      dsimp only at e
      split at e
      next =>
        dsimp only at e
        generalize (Core.enter _ _ _ _).1 = r at e
        cases r with
        | error => cases e
        | ok =>
          cases e
          exact ⟨nofun, nofun⟩
      next =>
        cases e
        exact ⟨nofun, nofun⟩
      all_goals cases e
    next => cases e

end Site

section Located

variable {F : FloatOps} {V : View} {trace : Bool} {exitDepth : Nat} {core : Core} {a : At}

/-- The loop is in the progs the registers name. -/
def LocatedAt : Status At Stop → Prop :=
  Status.Holds (fun a => a.core.x.prnum = a.loc.prnum) fun _ => True

/-- Reloading the registers puts the loop in the current progs. -/
lemma locatedAt_reload (V : View) (budget cachedPr : Nat) (cached : Arr Stmt) :
    LocatedAt (reload V core budget cachedPr cached) := by
  unfold reload
  dsimp only
  split
  next => trivial
  next ps _ =>
    generalize (if cachedPr ≠ core.x.prnum then ps.code else cached) = code
    split
    next => trivial
    next =>
      split
      next => trivial
      next => exact rfl

/-- A run starts in the current progs. -/
lemma locatedAt_start (V : View) (budget : Nat) : LocatedAt (start V core budget) := by
  unfold start
  split
  next => trivial
  next => exact locatedAt_reload _ _ _ _

/-- Going on after a statement keeps the loop in the current progs. -/
lemma locatedAt_proceed {r : Except ErrorKind After × Core} (here : a.core.x.prnum = a.loc.prnum)
    (stays : r.2 = a.core ∨ ∀ ended, r.1 = .ok ended → ended ≠ .next ∧ ∀ target, ended ≠ .goto target) :
    LocatedAt (proceed V a r) := by
  unfold proceed
  dsimp only
  split
  next => trivial
  next e =>
    rw [stays.resolve_right fun moves => (moves _ e).1 rfl]
    exact here
  next e =>
    rw [stays.resolve_right fun moves => (moves _ e).2 _ rfl]
    exact here
  next => exact locatedAt_reload _ _ _ _
  next => trivial
  next => trivial

/-- A statement keeps the loop in the current progs. -/
lemma locatedAt_execute (here : a.core.x.prnum = a.loc.prnum) :
    LocatedAt (execute F V trace exitDepth a) := by
  unfold execute
  split
  next => trivial
  next st _ =>
    have same := @Site.same_run (a.site V st) a.core F _ _ _ (@placed_statement F (a.site V st) exitDepth)
    have here := same.prnum.trans here
    dsimp only
    split
    next => trivial
    next => exact here
    next => trivial
    next after ended =>
      have charged := (Prog.run_value placed_statement ended).2
      unfold charge
      dsimp only
      split
      next => trivial
      next => exact locatedAt_proceed here charged.stays

/-- A statement leaves the loop where the registers are. -/
lemma locatedAt_step (here : a.core.x.prnum = a.loc.prnum) :
    LocatedAt (step F V trace exitDepth a) := by
  unfold step
  split
  next => trivial
  next =>
    refine locatedAt_execute ?_
    dsimp only
    split
    next => exact here
    next => exact here

end Located

end Qcvm

import Qcvm.Vm.Blocks

/-!
# The interpreter in a reachable system

Which loop a VM runs its code with, and what the loop keeps in its variables: the flag of the VM says
whether every operand lies in the window, and the statements the loop runs are those of a loaded progs.
-/

namespace Qcvm

open Lib

/-! ## The window -/

/-- The window depends on the size of region S and the progs only. -/
lemma windowFits_congr {core core' : Core} (size : core'.mem.s.size = core.mem.s.size)
    (progs : core'.progs = core.progs) : windowFits core' = windowFits core := by
  unfold windowFits
  rw [size, progs]

/-- A plain change keeps whether the window fits. -/
lemma Core.Plain.windowFits {core core' : Core} (p : core.Plain core') :
    windowFits core' = Qcvm.windowFits core :=
  windowFits_congr (congrArg Memory.Shape.sSize p.shape) p.progs

/-- Most host operations change the core only. -/
lemma Vm.host_of_ne {vm : Vm} {F : FloatOps} {op : HostOp}
    (ne : ∀ loaded reserved, op ≠ .addProgs loaded reserved) :
    vm.host F op = { vm with core := vm.core.host F vm.builtins op } := by
  cases op with
  | addProgs loaded reserved => exact absurd rfl (ne loaded reserved)
  | _ => rfl

/-- The VM knows whether the window fits. -/
def Sys.Windowed (s : Sys) : Prop := s.vm.window = windowFits s.vm.core

namespace Sys

variable {F : FloatOps} {s t : Sys}

/-- A plain change keeps the window valid. -/
lemma Windowed.plain (w : s.Windowed) (p : s.vm.core.Plain t.vm.core)
    (flag : t.vm.window = s.vm.window) : t.Windowed :=
  flag.trans (w.trans p.windowFits.symm)

/-- A host operation keeps the window valid. -/
lemma Windowed.host (w : s.Windowed) (op : HostOp) : Windowed { s with vm := s.vm.host F op } := by
  have hosted : Core.Hosted F op s.vm.core (s.vm.core.host F s.vm.builtins op) := s.vm.core.hosted op
  by_cases adds : ∃ loaded reserved, op = .addProgs loaded reserved
  · obtain ⟨loaded, reserved, rfl⟩ := adds
    unfold Windowed Vm.host
    dsimp only
    split
    next => rfl
    next core e =>
      rcases Core.addProgs_cases F s.vm.core loaded.program s.vm.builtins reserved with
        ⟨-, _, e'⟩ | ⟨map, fields, fieldBytes, -, -, -, ⟨-, e'⟩ | ⟨-, e'⟩⟩
      · cases e.symm.trans e'
        exact w
      · cases e.symm.trans e'
        exact w.trans (windowFits_congr rfl rfl).symm
      · cases e.symm.trans e'
  · rcases hosted.progs with ⟨progs, size⟩ | added
    · rw [Vm.host_of_ne fun loaded reserved e => adds ⟨loaded, reserved, e⟩]
      exact w.trans (windowFits_congr size progs).symm
    · exact absurd added adds

/-- Every action keeps the window valid. -/
lemma windowed_rules (a : Action) : Rules F a Windowed Windowed fun _ => Windowed where
  weaken w := w
  calm w c := w.plain c.core.toPlain c.window
  calmAfter w c := w.plain c.core.toPlain c.window
  calmQueue w c := w.plain c.core.toPlain c.window
  fund w _ := w
  fundQueue w _ := w
  host {s op} _ w _ _ := w.host op
  reset {s} _ w _ _ := by
    unfold Windowed Vm.reset
    split
    next => rfl
    next => exact w
  enter {s f args argc topLevel pr entered} _ w _ _ e := by
    have moved := Core.moved_enter (s.vm.core.nested argc) f.progs f.index s.vm.core.x.pc
    rw [e] at moved
    exact w.plain ⟨moved.plain.shape, moved.plain.progs, moved.plain.fields, moved.plain.config⟩ rfl
  direct _ w _ _ := w.plain ⟨rfl, rfl, rfl, rfl⟩ rfl
  run {s p rest sizes expires saved} _ w b _ _ _ := by
    have ran : Vm.Ran p.exitDepth s.vm (Vm.runChunks F p.exitDepth expires sizes s.vm) :=
      Vm.ran_runChunks expires sizes s.vm b.layout.mem.toRegions
    exact w.plain ran.core.plain ran.window
  builtin w _ _ _ _ := w.plain ⟨rfl, rfl, rfl, rfl⟩ rfl
  doing w _ _ _ := w.plain (.refl _) rfl
  close {s p rest core argc builtin topLevel pr} w _ _ _ settled :=
    w.plain (settled.moved.plain.trans (p.plain_close core)) rfl
  closeThread {s p core queue ran} w _ _ _ settled :=
    w.plain (settled.moved.plain.trans (p.plain_close core)) rfl
  wake _ w _ _ := w.plain ⟨rfl, rfl, rfl, rfl⟩ rfl
  resume {s thread queue ran core} w _ _ e := by
    have plain := Core.plain_resumeThread { s.vm.core with nesting := s.vm.core.nesting + 1 } thread
    rw [e] at plain
    exact w.plain ⟨plain.shape, plain.progs, plain.fields, plain.config⟩ rfl
  stale {s thread queue kind core} w _ _ e := by
    have plain := Core.plain_resumeThread { s.vm.core with nesting := s.vm.core.nesting + 1 } thread
    rw [e] at plain
    exact w.plain ⟨plain.shape, plain.progs, plain.fields, plain.config⟩ rfl
  requeue w _ _ := w.plain ⟨rfl, rfl, rfl, rfl⟩ rfl
  idle w _ _ := w

/-- The VM of every reachable system knows whether the window fits. -/
lemma Reachable.windowed (r : s.Reachable F) : s.Windowed := by
  refine (Rules.reachable windowed_rules (fun main builtins config vm start => ?_) r).2
  unfold Vm.new at start
  cases built : buildCore main.program builtins config with
  | error kind =>
    rw [built] at start
    cases start
  | ok core =>
    rw [built] at start
    cases start
    rfl

end Sys

/-! ## The loop's variables -/

/-- The statements `code` are those of a loaded progs, and of progs `prnum` unless that is 255, for
which the loop takes the first progs' at its start. -/
structure Core.Cached (core : Core) (prnum : Nat) (code : Arr Stmt) : Prop where
  loaded : ∃ ps ∈ core.progs, code = ps.code
  own : prnum ≠ 255 → ∀ ps, core.progs[prnum]? = some ps → code = ps.code

/-- What the loop keeps in its variables is what it took from the progs. -/
structure At.Loaded (a : At) : Prop extends a.core.Cached a.loc.prnum a.loc.code where
  here : ∃ ps, a.core.progs[a.loc.prnum]? = some ps ∧ a.loc.gb = ps.gbase ∧ a.loc.ng = ps.numGlobals

section Loop

variable {F : FloatOps} {V : View} {trace : Bool} {exitDepth : Nat} {core core' : Core}

/-- Whether statements are cached depends on the progs alone. -/
lemma Core.Cached.of_eq {prnum : Nat} {code : Arr Stmt} (c : core.Cached prnum code)
    (progs : core'.progs = core.progs) : core'.Cached prnum code := by
  refine ⟨?_, ?_⟩
  · rw [progs]
    exact c.loaded
  · rw [progs]
    exact c.own

/-- Whether a loop is loaded depends on the progs and its place alone. -/
lemma At.Loaded.of_eq {a b : At} (l : a.Loaded) (progs : b.core.progs = a.core.progs)
    (loc : b.loc = a.loc) : b.Loaded := by
  refine ⟨?_, ?_⟩
  · rw [loc]
    exact l.toCached.of_eq progs
  · rw [progs, loc]
    exact l.here

/-- The loop is loaded where it runs. -/
def LoadedAt : Status At Stop → Prop := Status.Holds At.Loaded fun _ => True

/-- Reloading the registers loads the loop. -/
lemma loadedAt_reload (V : View) (core : Core) (budget : Nat) {cachedPr : Nat} {cached : Arr Stmt}
    (c : core.Cached cachedPr cached) : LoadedAt (reload V core budget cachedPr cached) := by
  unfold reload
  dsimp only
  split
  next => trivial
  next ps found =>
    have chosen : core.Cached core.x.prnum (if cachedPr ≠ core.x.prnum then ps.code else cached) := by
      split
      next =>
        refine ⟨⟨ps, List.mem_of_getElem? found, rfl⟩, fun _ ps' found' => ?_⟩
        cases found.symm.trans found'
        rfl
      next same =>
        rw [not_not] at same
        exact same ▸ c
    generalize (if cachedPr ≠ core.x.prnum then ps.code else cached) = code at chosen
    split
    next => trivial
    next =>
      split
      next => trivial
      next => exact ⟨chosen, ps, found, rfl, rfl⟩

/-- The start of a run loads the loop. -/
lemma loadedAt_start (V : View) (core : Core) (budget : Nat) : LoadedAt (start V core budget) := by
  unfold start
  split
  next => trivial
  next ps first =>
    exact loadedAt_reload V core budget
      ⟨⟨ps, List.mem_of_mem_head? (Option.mem_def.mpr first), rfl⟩, fun ne => absurd rfl ne⟩

/-- Going on after a statement keeps the loop loaded. -/
lemma loadedAt_proceed {a : At} (l : a.Loaded) (r : Except ErrorKind After × Core)
    (progs : r.2.progs = a.core.progs) : LoadedAt (proceed V a r) := by
  unfold proceed
  dsimp only
  split
  next => trivial
  next => exact l.of_eq progs rfl
  next => exact l.of_eq progs rfl
  next => exact loadedAt_reload V r.2 a.budget (l.toCached.of_eq progs)
  next => trivial
  next => trivial

/-- A statement keeps the loop loaded. -/
lemma loadedAt_execute {a : At} (l : a.Loaded) (regions : a.core.mem.Regions) :
    LoadedAt (execute F V trace exitDepth a) := by
  unfold execute
  split
  next => trivial
  next st _ =>
    have moved := (a.site V st).run_moved regions F (statement F (a.site V st) exitDepth)
    have progs := congrArg Core.Fixed.progs moved.fixed
    dsimp only
    split
    next => trivial
    next => exact l.of_eq progs rfl
    next => trivial
    next after _ =>
      unfold charge
      dsimp only
      split
      next => trivial
      next =>
        have paid := (a.site V st).run_moved (moved.regions regions) F after
        have here (core : Core) (budget : Nat) (e : core.progs = a.core.progs) :
            At.Loaded ⟨core, a.loc, a.pc, budget⟩ := l.of_eq e rfl
        exact loadedAt_proceed (here _ _ progs) _ (congrArg Core.Fixed.progs paid.fixed)

/-- A statement leaves the loop's variables as a reload sets them. -/
lemma loadedAt_step {a : At} (l : a.Loaded) (regions : a.core.mem.Regions) :
    LoadedAt (step F V trace exitDepth a) := by
  unfold step
  split
  next => trivial
  next =>
    dsimp only
    split
    next => exact loadedAt_execute (l.of_eq rfl rfl) regions
    next => exact loadedAt_execute l regions

end Loop

/-- The interpreter loop of a system is at `a`, in a run with a core that differs from the system's in
what runs may change only. -/
def Sys.Interprets (F : FloatOps) (s : Sys) (V : View) (trace : Bool) (exitDepth : Nat) (a : At) :
    Prop :=
  (V = .window → s.vm.window = true) ∧ ∃ core budget n, s.vm.core.Plain core ∧
    Status.runFor (step F V trace exitDepth) n (start V core budget) = .running a

/-- Wherever the loop of a reachable system is, memory is laid out as before and the loop's variables
are up to date. -/
theorem Sys.Interprets.loaded {F : FloatOps} {s : Sys} {V : View} {trace : Bool} {exitDepth : Nat}
    {a : At} (i : s.Interprets F V trace exitDepth a) (b : s.Base) :
    s.vm.core.Plain a.core ∧ a.Loaded := by
  obtain ⟨-, core, budget, n, plain, runs⟩ := i
  have regions := plain.regions b.layout.mem.toRegions
  have h : Status.Holds (fun a => core.Moved a.core ∧ a.Loaded) (fun _ => True)
      (Status.runFor (step F V trace exitDepth) n (start V core budget)) := by
    refine Status.runFor_holds (fun a h => ?_) n ?_
    · have moved := @movedFrom_step F V trace exitDepth a (h.1.regions regions)
      have loaded := @loadedAt_step F V trace exitDepth a h.2 (h.1.regions regions)
      cases e : step F V trace exitDepth a with
      | done => trivial
      | running a' =>
        rw [e] at moved loaded
        exact ⟨h.1.trans moved, loaded⟩
    · have moved := movedFrom_start V core budget
      have loaded := loadedAt_start V core budget
      cases e : Qcvm.start V core budget with
      | done => trivial
      | running a' =>
        rw [e] at moved loaded
        exact ⟨moved, loaded⟩
  rw [runs] at h
  exact ⟨plain.trans h.1.plain, h.2⟩

end Qcvm

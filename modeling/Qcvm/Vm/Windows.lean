import Qcvm.Interp.Views
import Qcvm.Vm.Checked

/-!
# The window is exact

The loop that masks its offsets comes to what the loop that checks them comes to, from any state of
the system and with any budget: where all programs fit the window, every word a statement names lies
in it (`Site.Reaching`), the loop stays in its statements, and so both loops run in lockstep
(`window_exact`). The one thing the check of the window leaves out are the words of PARM0 and PARM1
that calls with register arguments write.
-/

namespace Qcvm

open Lib

/-! ## Statements -/

namespace Core

variable {T : Bool → Bool → Prop} {core core' core'' : Core}

/-- Likeness does not tell equal cores apart. -/
lemma Alike.of_eq (h : core.Alike Eq core') (h' : core'.Alike T core'') : core.Alike T core'' := by
  obtain ⟨_, _, rfl, rfl⟩ := h
  obtain ⟨pc, traced, flag, rfl⟩ := h'
  exact ⟨pc, traced, flag, rfl⟩

end Core

namespace View

/-- The view reaches the words of a value at an offset. -/
def ReachesRow (V : View) (o : Nat) : Prop := ∀ k < 3, V.Reaches (o + 4 * k)

end View

namespace Site

/-- The view reaches what the statement may reach. -/
structure Reaching (site : Site) : Prop where
  names : ∀ s, site.Names s → site.view.ReachesRow (site.st.operand s)
  globals : ∀ off, off + 4 ≤ 4 * site.ng → site.view.Reaches (site.gb + off)
  slots : ∀ off, site.st.op.ReachesSlot off → site.view.Reaches (site.gb + off)

variable {site : Site} {core core' : Core} {F : FloatOps} {T : Bool → Bool → Prop}

/-- A statement whose operands are reached finds every place that it may touch. -/
lemma Reaching.finds (h : site.Reaching) (switch : site.view.ReachesRow core.x.switchRef) {f : Micro}
    (placed : site.Placed f) : site.Finds core f := by
  have zero {s : Slot} (names : site.Names s) : site.view.Reaches (site.st.operand s) :=
    h.names s names 0 (by omega)
  cases f with
  | get s k | set s k v => exact h.names s placed.2 k placed.1
  | getGlobal off => exact h.globals off placed
  | setGlobal off v => exact placed.elim (h.globals off) (h.slots off)
  | getRef k => exact switch k placed
  | storeField words =>
    obtain ⟨⟨some, few⟩, a, b, c⟩ := placed
    exact ⟨zero a, zero b, some, fun k lt => h.names .c c k (Nat.lt_of_lt_of_le lt few)⟩
  | storeThrough base offset bytes => exact placed
  | loadThrough words base offset =>
    obtain ⟨⟨some, few⟩, c⟩ := placed
    exact ⟨some, fun k lt => h.names .c c k (Nat.lt_of_lt_of_le lt few)⟩
  | compound op => exact ⟨zero placed.1, zero placed.2.1, zero placed.2.2⟩
  | _ => trivial

/-- An operation that names words in the view's reach names words in all of region S. -/
lemma Finds.whole {f : Micro} (h : site.Finds core f) : { site with view := .whole }.Finds core f := by
  cases f with
  | storeField words => exact ⟨trivial, trivial, h.2.2.1, fun _ _ => trivial⟩
  | storeThrough base offset bytes => exact h
  | loadThrough words base offset => exact ⟨h.1, fun _ _ => trivial⟩
  | compound op => exact ⟨trivial, trivial, trivial⟩
  | _ => trivial

/-- The core a program of the statement runs on: the view covers it, and reaches the operand of the
last `SWITCH`. -/
structure Covered (site : Site) (core : Core) : Prop where
  regions : core.mem.Regions
  covers : site.view.covers core.mem.s
  switchRef : site.view.ReachesRow core.x.switchRef

/-- What a view covers depends on the size of the region alone. -/
lemma covers_of_size {V : View} {s s' : Arr Byte} (size : s'.size = s.size) (c : V.covers s) :
    V.covers s' := by
  cases V with
  | whole => exact c
  | window => exact decide_eq_true (size.symm ▸ of_decide_eq_true c)

/-- A placed access keeps the core covered. -/
lemma Covered.handle (h : site.Covered core) (reaching : site.Reaching) {f : Micro}
    (placed : site.Placed f) : site.Covered (site.handle F f core).2 := by
  have moved := site.handle_moved h.regions F f
  refine ⟨moved.regions h.regions, covers_of_size (congrArg Memory.Shape.sSize moved.mem.shape) h.covers,
    ?_⟩
  rcases @switchRef_handle site core F f placed with kept | ⟨names, set⟩
  · rw [kept]
    exact h.switchRef
  · rw [set]
    exact reaching.names .a names

/-- Through the view and through all of region S, a program of the statement runs alike. -/
lemma alike_run_whole (h : site.Covered core) (reaching : site.Reaching) {α : Type} {p : Arm α}
    {Q : α → Prop} (placed : p.All site.Placed Q) (alike : core.Alike T core') :
    (p.run (site.handle F) core).1 = (p.run ({ site with view := .whole }.handle F) core').1 ∧
      (p.run (site.handle F) core).2.Alike T (p.run ({ site with view := .whole }.handle F) core').2 ∧
      site.Covered (p.run (site.handle F) core).2 := by
  refine Prog.run_related (S := fun c c' : Core => c.Alike T c' ∧ site.Covered c) placed ?_ ⟨alike, h⟩
  rintro f c c' placed ⟨alike, covered⟩
  have finds := reaching.finds covered.switchRef placed
  obtain ⟨value, same⟩ := handle_view (F := F) (V := .whole) covered.regions covered.covers rfl finds
    finds.whole
  obtain ⟨value', still⟩ := @alike_handle { site with view := .whole } T c c' F f alike
  exact ⟨value.trans value', same.of_eq still, covered.handle reaching placed⟩

/-- So does what is left of it once it is paid for. -/
lemma alike_paid_whole {exitDepth : Nat} {after : Arm After} (charged : site.Charged exitDepth after)
    (h : site.Covered core) (reaching : site.Reaching) (alike : core.Alike T core') :
    AlikePaid T (after.run (site.handle F) core)
      (after.run ({ site with view := .whole }.handle F) core') := by
  cases charged with
  | next => exact ⟨rfl, alike, nofun, nofun⟩
  | goto => exact ⟨rfl, alike, nofun, nofun⟩
  | leave names =>
    refine @Site.alike_leaveFunction site T core core' F .whole exitDepth ?_
    rintro r r' rfl rfl
    obtain ⟨value, rest, -⟩ := alike_run_whole (F := F) h reaching (all_return names) alike
    exact ⟨value, rest⟩
  | dispatch call =>
    refine @Site.alike_dispatch site T core core' F .whole ?_
    rintro r r' rfl rfl
    have passes : (Arm.passArguments site.st.op).All site.Placed fun _ => True :=
      all_passArguments trivial
    obtain ⟨value, rest, covered⟩ := alike_run_whole (F := F) h reaching passes alike
    refine ⟨value, rest, ?_⟩
    obtain ⟨_, _, _, e⟩ := rest
    have first : site.view.Reaches site.st.a := reaching.names .a (names_call call) 0 (by omega)
    rw [e, View.g_eq covered.covers first, View.g_eq (V := .whole) rfl trivial]
    rfl

end Site

/-! ## The loop -/

/-- The view covers every progs' statements, and those the loop has cached. -/
structure View.CoversCodes (V : View) (core : Core) (cached : Arr Stmt) : Prop where
  cached : V.coversCode cached
  progs : ∀ ps ∈ core.progs, V.coversCode ps.code

section Loop

variable {T : Bool → Bool → Prop} {F : FloatOps} {V : View} {trace trace' : Bool} {exitDepth : Nat}
variable {core core' : Core}

/-- A reload that the view covers is a reload without it. -/
lemma reload_whole {cached : Arr Stmt} (codes : V.CoversCodes core cached)
    (covers : V.covers core.mem.s) (budget cachedPr : Nat) :
    reload V core budget cachedPr cached = reload .whole core budget cachedPr cached := by
  unfold reload
  dsimp only
  split
  next => rfl
  next ps found =>
    have code : V.coversCode (if cachedPr ≠ core.x.prnum then ps.code else cached) = true := by
      split
      next => exact codes.progs ps (List.mem_of_getElem? found)
      next => exact codes.cached
    rw [code, covers]
    rfl

/-- Through the view and through all of region S, a statement runs alike. -/
lemma alike_execute_whole {a : At} (h : a.core.Alike T core') (flag : T trace trace')
    (l : a.core.mem.Regions) (here : View.stmtAt .whole a.loc.code a.pc = V.stmtAt a.loc.code a.pc)
    (inside : ∀ st, V.stmtAt a.loc.code a.pc = some st →
      (a.site V st).Reaching ∧ (a.site V st).Covered a.core)
    (codes : V.CoversCodes a.core a.loc.code) :
    AlikeAt T (execute F V trace exitDepth a)
      (execute F .whole trace' exitDepth { a with core := core' }) := by
  unfold execute
  dsimp only
  rw [here]
  split
  next => exact ⟨_, h.markPc a.pc, rfl⟩
  next st found =>
    obtain ⟨reaching, covered⟩ := inside st found
    have placed : (statement F (a.site V st) exitDepth).All (a.site V st).Placed
      ((a.site V st).Ends exitDepth) := placed_statement
    obtain ⟨value, alike, covered'⟩ := Site.alike_run_whole (F := F) covered reaching placed h
    have ends := fun v => Prog.run_value (h := (a.site V st).handle F) (s := a.core) (v := v) placed
    have moved := (a.site V st).run_moved l F (statement F (a.site V st) exitDepth)
    change _ = ((statement F (At.site { a with core := core' } .whole st) exitDepth).run
      ((At.site { a with core := core' } .whole st).handle F) core').1 at value
    change Core.Alike T _ ((statement F (At.site { a with core := core' } .whole st) exitDepth).run
      ((At.site { a with core := core' } .whole st).handle F) core').2 at alike
    rw [← value]
    generalize (statement F (a.site V st) exitDepth).run ((a.site V st).handle F) a.core = r
      at alike ends covered' moved ⊢
    generalize ((statement F (At.site { a with core := core' } .whole st) exitDepth).run
      ((At.site { a with core := core' } .whole st).handle F) core').2 = core'' at alike ⊢
    cases e : r.1 with
    | error kind => exact ⟨_, alike.markPc a.pc, rfl⟩
    | ok outcome =>
      cases outcome with
      | next => exact ⟨_, alike, rfl⟩
      | stateOp op => exact ⟨_, alike.markPc _, rfl⟩
      | charge after =>
        have paid := Site.alike_paid_whole (F := F) (ends _ e).2 covered' reaching alike
        refine alike_charge (a := { a with core := r.2 }) alike flag paid ?_
        rintro q q' rfl rfl reloaded budget
        have more := moved.trans ((a.site V st).run_moved (moved.regions l) F after)
        have size := congrArg Memory.Shape.sSize
          ((a.site V st).run_moved (moved.regions l) F after).mem.shape
        have progs := congrArg Core.Fixed.progs more.fixed
        have still : V.CoversCodes (after.run ((a.site V st).handle F) r.2).2 a.loc.code := by
          refine ⟨codes.cached, fun ps mem => codes.progs ps ?_⟩
          rw [← show _ = a.core.progs from progs]
          exact mem
        have same := reload_whole still (Site.covers_of_size size covered'.covers) budget a.loc.prnum
        exact same ▸ alike_reload (paid.reload reloaded) budget a.loc.prnum a.loc.code

end Loop

/-- The words a call passes its arguments in, PARM0 and for two or more PARM1, lie in the window. -/
def At.PassesInside (a : At) : Prop :=
  ∀ st, View.stmtAt .window a.loc.code a.pc = some st → st.op.isHexen2Call = true →
    a.loc.gb + (if 2 ≤ st.op.callArgc.getD 0 then ofsParm1 else ofsParm0) + 12 ≤ windowSpan

section Lockstep

variable {F : FloatOps} {exitDepth : Nat} {core : Core} {a b : At}

/-- A global, and the two words behind it, lie in the window. -/
lemma reachesRow_of_global {ps : ProgsState} {o : Nat} (fits : windowFits core = true)
    (mem : ps ∈ core.progs) (named : GlobalAt ps.gbase (ps.numGlobals + globalsTail) o) :
    View.ReachesRow .window o := by
  obtain ⟨w, lt, rfl⟩ := named
  unfold windowFits at fits
  simp only [Bool.and_eq_true, List.all_eq_true, decide_eq_true_eq] at fits
  have inside := (fits.2 ps mem).1
  unfold globalsTail at lt
  intro k few
  show ps.gbase + 4 * w + 4 * k < windowSpan
  omega

/-- In the window, a statement reaches what the view reaches. -/
lemma At.reaching (runs : a.core.Runs .window) (loaded : a.Loaded) (passes : a.PassesInside) {st : Stmt}
    (found : View.stmtAt .window a.loc.code a.pc = some st) : (a.site .window st).Reaching := by
  have fits := runs.fits rfl
  obtain ⟨ps, here, gb, ng⟩ := loaded.here
  have window := fits
  unfold windowFits at window
  simp only [Bool.and_eq_true, List.all_eq_true, decide_eq_true_eq] at window
  have inside := (window.2 ps (List.mem_of_getElem? here)).1
  rw [← gb, ← ng] at inside
  refine ⟨fun s names => ?_, fun off small => ?_, fun off slot => ?_⟩
  · obtain ⟨ps, mem, -, -, linked⟩ := runs.fetched loaded.loaded found
    exact reachesRow_of_global fits mem (linked.names s names)
  · show a.loc.gb + off < windowSpan
    have small : off + 4 ≤ 4 * a.loc.ng := small
    omega
  · show a.loc.gb + off < windowSpan
    rcases slot with ⟨-, le⟩ | ⟨hexen2, slot⟩
    · unfold ofsReturn at le
      omega
    · have room := passes st found hexen2
      rcases slot with ⟨-, le⟩ | ⟨two, -, le⟩
      · unfold ofsParm0 ofsParm1 at *
        split at room <;> omega
      · have two : 2 ≤ st.op.callArgc.getD 0 := two
        rw [if_pos two] at room
        omega

/-- With five globals in every progs every call passes its arguments inside. -/
lemma At.passesInside_of_wide (runs : a.core.Runs .window) (loaded : a.Loaded)
    (wide : ∀ ps ∈ a.core.progs, 5 ≤ ps.numGlobals) : a.PassesInside := by
  intro st found hexen2
  have fits := runs.fits rfl
  obtain ⟨ps, here, gb, ng⟩ := loaded.here
  have mem := List.mem_of_getElem? here
  unfold windowFits at fits
  simp only [Bool.and_eq_true, List.all_eq_true, decide_eq_true_eq] at fits
  have inside := (fits.2 ps mem).1
  have some := wide ps mem
  rw [← gb] at inside
  unfold ofsParm0 ofsParm1
  split <;> omega

/-- The view covers what the loop runs on. -/
lemma At.covered (runs : a.core.Runs .window) (l : a.core.mem.Regions)
    (spot : Spot.Fits a.core.progs ⟨a.core.x.prnum, a.pc, a.core.x.switchRef⟩) (st : Stmt) :
    (a.site .window st).Covered a.core := by
  have fits := runs.fits rfl
  refine ⟨l, (Bool.and_eq_true_iff.mp fits).1, ?_⟩
  rcases spot.switchRef with none | ⟨ps, mem, named⟩
  · intro k few
    have none : a.core.x.switchRef = 0 := none
    rw [none]
    show 0 + 4 * k < windowSpan
    unfold windowSpan
    omega
  · exact reachesRow_of_global fits mem named

/-- The window covers the statements of a VM that runs in it. -/
lemma coversCodes (runs : core.Runs .window) {cached : Arr Stmt}
    (loaded : ∃ ps ∈ core.progs, cached = ps.code) : View.CoversCodes .window core cached := by
  have fits := runs.fits rfl
  unfold windowFits at fits
  simp only [Bool.and_eq_true, List.all_eq_true, decide_eq_true_eq] at fits
  have all : ∀ ps ∈ core.progs, View.coversCode .window ps.code := fun ps mem =>
    decide_eq_true (Nat.le_of_eq (fits.2 ps mem).2.symm)
  obtain ⟨ps, mem, rfl⟩ := loaded
  exact ⟨all ps mem, all⟩

/-- A pass of the two loops. -/
lemma alike_step_whole (runs : a.core.Runs .window) (l : a.core.mem.Regions) (loaded : a.Loaded)
    (spot : Spot.Fits a.core.progs ⟨a.core.x.prnum, a.pc, a.core.x.switchRef⟩)
    (passes : a.PassesInside) (h : a.Alike Eq b) :
    AlikeAt Eq (step F .window false exitDepth a) (step F .whole false exitDepth b) := by
  obtain ⟨core', alike, rfl⟩ := h
  have pc : a.pc < codeWindow := spotRule_fits.below (runs.fits rfl) spot
  have same : View.stmtAt .whole a.loc.code a.pc = View.stmtAt .window a.loc.code a.pc := by
    rw [stmtAt_eq, stmtAt_eq]
    exact congrArg _ (Nat.mod_eq_of_lt pc).symm
  exact alike_execute_whole alike rfl l same
    (fun st found => ⟨At.reaching runs loaded passes found, At.covered runs l spot st⟩)
    (coversCodes runs loaded.loaded)

/-- The loops run in lockstep. -/
lemma alike_runFor_whole {base : Context} (runs : core.Runs .window) (l : core.mem.Regions)
    (spotted : core.context.Spotted (Spot.Fits core.progs) exitDepth)
    (atop : core.Over core.resets exitDepth base) {budget : Nat}
    (passes : ∀ n a, Status.runFor (step F .window false exitDepth) n (start .window core budget)
      = .running a → a.PassesInside) (n : Nat) :
    AlikeAt Eq (Status.runFor (step F .window false exitDepth) n (start .window core budget))
      (Status.runFor (step F .whole false exitDepth) n (start .whole core budget)) := by
  induction n with
  | zero =>
    have same : start .window core budget = start .whole core budget := by
      unfold start
      split
      next => rfl
      next ps head =>
        have loaded : ∃ q ∈ core.progs, ps.code = q.code := ⟨ps, List.mem_of_mem_head? head, rfl⟩
        exact reload_whole (coversCodes runs loaded) (Bool.and_eq_true_iff.mp (runs.fits rfl)).1 _ _
    rw [Status.runFor_zero, Status.runFor_zero, same]
    exact alike_start (.refl core) budget
  | succ n ih =>
    have going := @going_runFor _ spotRule_fits F .window false exitDepth core base runs l spotted
      atop budget n
    rw [Status.runFor_add n 1, Status.runFor_add n 1]
    have inside := passes n
    generalize Status.runFor (step F .window false exitDepth) n (start .window core budget) = st
      at ih going inside ⊢
    generalize Status.runFor (step F .whole false exitDepth) n (start .whole core budget) = st' at ih ⊢
    cases st with
    | done stop =>
      cases st' with
      | done stop' => exact ih
      | running b => exact ih.elim
    | running a =>
      cases st' with
      | done stop' => exact ih.elim
      | running b =>
        have going : a.Going (fun progs spot => spot.Fits progs) exitDepth base core := going
        rw [Status.runFor_succ, Status.runFor_succ, Status.runFor_zero, Status.runFor_zero]
        exact alike_step_whole (runs.plain going.moved.plain) (going.moved.regions l) going.loaded
          going.aimed.x (inside a rfl) ih

/-- A run in the window is a run in all of region S. -/
theorem run_window_eq {base : Context} (runs : core.Runs .window) (l : core.mem.Regions)
    (spotted : core.context.Spotted (Spot.Fits core.progs) exitDepth)
    (atop : core.Over core.resets exitDepth base) {budget : Nat}
    (passes : ∀ n a, Status.runFor (step F .window false exitDepth) n (start .window core budget)
      = .running a → a.PassesInside) :
    runWindow F exitDepth core budget = runFast F exitDepth core budget := by
  have whole : core.Runs .whole := ⟨runs.linked, runs.small, nofun⟩
  obtain ⟨n, done⟩ := @Core.Runs.run_done F .window false exitDepth core runs l budget
  have related := alike_runFor_whole runs l spotted atop passes n
  rw [done] at related
  cases e : Status.runFor (step F .whole false exitDepth) n (start .whole core budget) with
  | running b =>
    rw [e] at related
    exact related.elim
  | done stop =>
    rw [e] at related
    obtain ⟨_, ⟨_, rfl, rfl⟩, rfl⟩ := related
    exact (whole.run_eq l e).symm

end Lockstep

/-! ## The system without the window -/

namespace Vm

variable {F : FloatOps} {exitDepth : Nat} {base : Context} {vm : Vm}

/-- The VM with the window off: the interpreter checks every offset. -/
def unwindowed (vm : Vm) : Vm := { vm with window := false }

/-- Wherever the interpreter is between chunks of the budget, calls pass their arguments inside. -/
def PassesInside (F : FloatOps) (exitDepth : Nat) (vm : Vm) : Prop :=
  ∀ last, vm.Resumes F exitDepth last → last.view = .window → ∀ chunk n a,
    Status.runFor (step F .window last.core.trace exitDepth) n (Qcvm.start .window last.fresh chunk)
      = .running a → a.PassesInside

/-- Without the window the interpreter comes to the same. -/
lemma interpret_unwindowed (h : vm.Aimed (fun progs spot => spot.Fits progs) exitDepth base)
    (passes : vm.PassesInside F exitDepth) (chunk : Nat) :
    vm.unwindowed.interpret F exitDepth chunk = vm.interpret F exitDepth chunk := by
  have off : vm.unwindowed.view = .whole := by
    unfold view unwindowed
    rw [Bool.and_false]
    rfl
  rw [interpret_eq, interpret_eq, off]
  show run F .whole vm.core.trace exitDepth vm.fresh chunk = run F vm.view vm.core.trace exitDepth
    vm.fresh chunk
  cases view : vm.view with
  | whole => rfl
  | window =>
    obtain ⟨runs, regions, spotted, atop⟩ := h.fresh
    have silent : vm.core.trace = false := by
      unfold Vm.view at view
      cases trace : vm.core.trace with
      | false => rfl
      | true =>
        rw [trace] at view
        cases view
    have inside := passes vm (.here vm) view chunk
    rw [view] at runs
    rw [silent] at inside ⊢
    exact (run_window_eq runs regions spotted atop inside).symm

/-- A chunk of the budget is the same with the window off. -/
lemma runChunk_unwindowed (h : vm.Aimed (fun progs spot => spot.Fits progs) exitDepth base)
    (passes : vm.PassesInside F exitDepth) (chunk : Nat) :
    vm.unwindowed.runChunk F exitDepth chunk
      = ((vm.runChunk F exitDepth chunk).1, (vm.runChunk F exitDepth chunk).2.unwindowed) := by
  unfold runChunk
  rw [interpret_unwindowed h passes]
  generalize vm.interpret F exitDepth chunk = stop
  dsimp only
  rw [show vm.unwindowed.budget = vm.budget from rfl]
  cases stop.exit with
  | budget =>
    dsimp only
    by_cases last : vm.budget ≤ chunk
    · rw [if_pos last, if_pos last]
      rfl
    · rw [if_neg last, if_neg last]
      rfl
  | _ => rfl

/-- A sequence of chunks is the same with the window off. -/
lemma runChunks_unwindowed (h : vm.Aimed (fun progs spot => spot.Fits progs) exitDepth base)
    (passes : vm.PassesInside F exitDepth) (expires : Bool) (sizes : List Nat) :
    runChunks F exitDepth expires sizes vm.unwindowed
      = ((runChunks F exitDepth expires sizes vm).1,
        (runChunks F exitDepth expires sizes vm).2.unwindowed) := by
  induction sizes generalizing vm with
  | nil => exact runChunk_unwindowed h passes vm.budget
  | cons size sizes ih =>
    unfold runChunks
    rw [runChunk_unwindowed h passes, show vm.unwindowed.budget = vm.budget from rfl]
    cases e : vm.runChunk F exitDepth (min vm.budget size) with
    | mk verdict next =>
      cases verdict with
      | more =>
        dsimp only
        split
        next => rfl
        next =>
          exact ih (h.more spotRule_fits e).2 fun last resumes =>
            passes last (.chunk _ e resumes)
      | _ => rfl

end Vm

namespace Sys

variable {F : FloatOps} {s t : Sys}

/-- The system with the window off. -/
def unwindowed (s : Sys) : Sys := { s with vm := s.vm.unwindowed }

/-- Turning the window off keeps the core. -/
lemma unwindowed_core (s : Sys) : s.unwindowed.vm.core = s.vm.core := rfl

/-- A change of the core is the same with the window off. -/
lemma unwindowed_mapCore (s : Sys) (f : Core → Core) :
    s.unwindowed.mapCore f = (s.mapCore f).unwindowed := rfl

/-- An event is the same with the window off. -/
lemma unwindowed_emit (s : Sys) (e : Event) : s.unwindowed.emit e = (s.emit e).unwindowed := rfl

/-- Flushing warnings is the same with the window off. -/
lemma unwindowed_flush (s : Sys) : s.unwindowed.flush = s.flush.unwindowed := rfl

/-- A collection is the same with the window off. -/
lemma unwindowed_collect (s : Sys) : s.unwindowed.collect = s.collect.unwindowed := by
  unfold collect
  rw [unwindowed_core]
  split <;> rfl

/-- The end of a top-level call is the same with the window off. -/
lemma unwindowed_endTopLevel (s : Sys) : s.unwindowed.endTopLevel = s.endTopLevel.unwindowed := by
  unfold endTopLevel
  rw [unwindowed_core]
  dsimp only
  split
  next => rw [unwindowed_mapCore, unwindowed_flush, unwindowed_collect]
  next => rw [unwindowed_flush, unwindowed_collect]

/-- The end of a call is the same with the window off. -/
lemma unwindowed_endCall (s : Sys) (argc : Nat) (builtin : FuncRef) (topLevel : Bool) (retPr : Nat)
    (r : Except VmError Unit) : s.unwindowed.endCall argc builtin topLevel retPr r
      = (s.endCall argc builtin topLevel retPr r).unwindowed := by
  unfold endCall
  rw [unwindowed_core]
  dsimp only
  rw [unwindowed_mapCore]
  cases topLevel with
  | true => rw [if_pos rfl, if_pos rfl, unwindowed_endTopLevel, unwindowed_emit]
  | false => rfl

/-- Resuming the next thread is the same with the window off. -/
lemma unwindowed_nextThread (s : Sys) (queue : List Thread) (ran : Nat) :
    s.unwindowed.nextThread queue ran = (s.nextThread queue ran).unwindowed := by
  unfold nextThread
  cases queue with
  | nil =>
    dsimp only
    rw [unwindowed_collect, unwindowed_emit]
  | cons thread queue =>
    dsimp only
    rw [show s.unwindowed.vm.startBudgets.core = s.vm.startBudgets.core from rfl]
    generalize Core.resumeThread _ thread = r
    obtain ⟨_ | _, core⟩ := r <;> rfl

/-- The end of a thread is the same with the window off. -/
lemma unwindowed_endThread (s : Sys) (queue : List Thread) (ran : Nat) (r : Except VmError Unit) :
    s.unwindowed.endThread queue ran r = (s.endThread queue ran r).unwindowed := by
  unfold endThread
  dsimp only
  rw [unwindowed_mapCore, unwindowed_flush]
  cases r with
  | ok _ => exact unwindowed_nextThread _ queue (ran + 1)
  | error e => rfl

/-- Delivering a result is the same with the window off. -/
lemma unwindowed_deliver (s : Sys) (origin : Origin) (r : Except VmError Unit) :
    s.unwindowed.deliver origin r = (s.deliver origin r).unwindowed := by
  cases origin with
  | call argc builtin topLevel retPr => exact s.unwindowed_endCall argc builtin topLevel retPr r
  | threads queue ran => exact s.unwindowed_endThread queue ran r

/-- Completing a call is the same with the window off. -/
lemma unwindowed_complete (s : Sys) (p : Pending) (r : Except VmError Unit) :
    s.unwindowed.complete p r = (s.complete p r).unwindowed := by
  unfold complete restore
  cases p.restore with
  | entry saved =>
    dsimp only
    rw [unwindowed_mapCore, unwindowed_deliver]
  | prnum saved =>
    dsimp only
    rw [unwindowed_mapCore, unwindowed_deliver]

/-- A failed call is the same with the window off. -/
lemma unwindowed_failed (s : Sys) (p : Pending) (e : VmError) :
    s.unwindowed.failed p e = (s.failed p e).unwindowed := by
  unfold failed
  dsimp only
  rw [unwindowed_core, unwindowed_mapCore, unwindowed_complete]

/-- Entering a builtin is the same with the window off. -/
lemma unwindowed_enterBuiltin (s : Sys) (p : Pending) (slot : Nat) (func : FuncRef) :
    s.unwindowed.enterBuiltin p slot func = (s.enterBuiltin p slot func).unwindowed := by
  unfold enterBuiltin
  rw [show s.unwindowed.vm.builtins = s.vm.builtins from rfl]
  split
  next => rfl
  next => rw [unwindowed_core, unwindowed_failed]

/-- Going on with a call is the same with the window off. -/
lemma unwindowed_flowContinue (s : Sys) (p : Pending) :
    s.unwindowed.flowContinue p = (s.flowContinue p).unwindowed := by
  unfold flowContinue
  cases p.restore with
  | entry saved => rfl
  | prnum saved => exact s.unwindowed_complete p (.ok ())

/-- Leaving a builtin is the same with the window off. -/
lemma unwindowed_leaveBuiltin (s : Sys) (p : Pending) (r : Except VmError Unit) :
    s.unwindowed.leaveBuiltin p r = (s.leaveBuiltin p r).unwindowed := by
  unfold leaveBuiltin
  cases r with
  | ok _ => exact s.unwindowed_flowContinue p
  | error e =>
    dsimp only
    rw [unwindowed_core]
    cases e.abort with
    | some ret =>
      dsimp only
      rw [unwindowed_mapCore, unwindowed_complete]
    | none =>
      cases e.kind with
      | builtin msg =>
        dsimp only
        split
        next => rw [unwindowed_mapCore, unwindowed_flush, unwindowed_flowContinue]
        next => exact s.unwindowed_failed p e
      | _ => exact s.unwindowed_failed p e

/-- What follows a run is the same with the window off. -/
lemma unwindowed_onVerdict (s : Sys) (p : Pending) (v : Verdict) :
    s.unwindowed.onVerdict p v = (s.onVerdict p v).unwindowed := by
  unfold onVerdict
  cases v with
  | runaway | deadline =>
    dsimp only
    rw [unwindowed_flush, unwindowed_failed]
  | more => rfl
  | exit e =>
    cases e with
    | returned =>
      dsimp only
      rw [unwindowed_flush, unwindowed_complete]
    | builtin slot func =>
      dsimp only
      rw [unwindowed_flush, unwindowed_enterBuiltin]
    | fault kind =>
      dsimp only
      rw [unwindowed_flush, unwindowed_failed]
    | _ => rfl

/-- Dispatching a call is the same with the window off. -/
lemma unwindowed_dispatch (s : Sys) (f : FuncRef) (callee : Option Callee) (origin : Origin) :
    s.unwindowed.dispatch f callee origin = (s.dispatch f callee origin).unwindowed := by
  unfold dispatch
  rw [unwindowed_core]
  cases callee with
  | none => exact s.unwindowed_deliver origin _
  | some callee =>
    cases callee with
    | qc =>
      dsimp only
      generalize s.vm.core.enter f.progs f.index s.vm.core.x.pc = r
      obtain ⟨kind | _, entered⟩ := r
      · dsimp only
        rw [unwindowed_mapCore, unwindowed_deliver]
      · rfl
    | builtin slot =>
      dsimp only
      rw [unwindowed_mapCore, unwindowed_enterBuiltin]
    | null | missing | invalid => exact s.unwindowed_deliver origin _

/-- A call is the same with the window off. -/
lemma unwindowed_call (s : Sys) (f : FuncRef) (args : List Arg) :
    s.unwindowed.call f args = (s.call f args).unwindowed := by
  unfold call
  rw [unwindowed_core]
  dsimp only
  split
  next => rfl
  next =>
    have vm : (if s.vm.core.nesting == 0 then
          { s.unwindowed.vm with
            core := { s.vm.core with warningsThisCall := 0, suppressed := 0 } }.startBudgets
        else s.unwindowed.vm)
        = (if s.vm.core.nesting == 0 then
          { s.vm with core := { s.vm.core with warningsThisCall := 0, suppressed := 0 } }.startBudgets
        else s.vm).unwindowed := by
      split <;> rfl
    rw [vm]
    generalize (if s.vm.core.nesting == 0 then
      { s.vm with core := { s.vm.core with warningsThisCall := 0, suppressed := 0 } }.startBudgets
      else s.vm) = ready
    rw [show ready.unwindowed.core = ready.core from rfl]
    generalize ready.core.writeArgs _ args = written
    obtain ⟨kind | _, core⟩ := written
    · rfl
    · exact unwindowed_dispatch ⟨{ ready with core := _ }, s.stack, s.events⟩ f _ _

/-- Starting to run threads is the same with the window off. -/
lemma unwindowed_runThreads (s : Sys) :
    s.unwindowed.runThreads F = (s.runThreads F).unwindowed := by
  unfold runThreads
  rw [unwindowed_core]
  split
  next => rfl
  next =>
    dsimp only
    rw [unwindowed_mapCore, unwindowed_nextThread]

/-- Loading programs and building the VM anew look at the window again. -/
lemma unwindowed_host (op : HostOp) :
    (s.vm.unwindowed.host F op).unwindowed = (s.vm.host F op).unwindowed := by
  unfold Vm.host
  split
  next loaded reserved =>
    rw [show s.vm.unwindowed.core = s.vm.core from rfl,
      show s.vm.unwindowed.builtins = s.vm.builtins from rfl]
    generalize s.vm.core.addProgs F loaded.program s.vm.builtins reserved = r
    obtain ⟨_ | _, core⟩ := r <;> rfl
  next => rfl

/-- Any action but a run of the interpreter does the same without the window. -/
lemma act_unwindowed {a : Action} (other : ∀ sizes expires, a ≠ .run sizes expires) :
    (s.unwindowed.actIdleReset F a).map unwindowed = (s.actIdleReset F a).map unwindowed := by
  have host : s.unwindowed.hostRuns = s.hostRuns := rfl
  have lift {x y : Sys} (h : x = y.unwindowed) : (some x).map unwindowed = (some y).map unwindowed := by
    rw [h]
    rfl
  cases a with
  | run sizes expires => exact absurd rfl (other sizes expires)
  | host op =>
    simp only [actIdleReset_of_ne, ne_eq, reduceCtorEq, not_false_eq_true, act]
    rw [host]
    split
    next => exact congrArg (fun vm => some (Sys.mk vm s.stack s.events)) (s.unwindowed_host op)
    next => rfl
  | call f args =>
    simp only [actIdleReset_of_ne, ne_eq, reduceCtorEq, not_false_eq_true, act]
    rw [host]
    split
    next => exact lift (s.unwindowed_call f args)
    next => rfl
  | runThreads =>
    simp only [actIdleReset_of_ne, ne_eq, reduceCtorEq, not_false_eq_true, act]
    rw [host]
    split
    next => exact lift s.unwindowed_runThreads
    next => rfl
  | reset =>
    unfold actIdleReset resetsInside act
    rw [host, show s.unwindowed.stack = s.stack from rfl]
    dsimp only
    split
    next => rfl
    next =>
      have built : s.vm.unwindowed.reset.unwindowed = s.vm.reset.unwindowed := by
        unfold Vm.reset
        rw [show s.vm.unwindowed.main = s.vm.main from rfl,
          show s.vm.unwindowed.builtins = s.vm.builtins from rfl,
          show s.vm.unwindowed.core = s.vm.core from rfl]
        split <;> rfl
      split
      next => exact congrArg (fun vm => some (Sys.mk vm s.stack s.events)) built
      next => rfl
  | finish r =>
    simp only [actIdleReset_of_ne, ne_eq, reduceCtorEq, not_false_eq_true]
    cases stack : s.stack with
    | nil => simp only [act, show s.unwindowed.stack = s.stack from rfl, stack]
    | cons p rest =>
      simp only [act, show s.unwindowed.stack = s.stack from rfl, stack]
      split
      next =>
        exact lift (unwindowed_leaveBuiltin { s with stack := rest } p r)
      next => rfl
  | stateDone r =>
    simp only [actIdleReset_of_ne, ne_eq, reduceCtorEq, not_false_eq_true]
    cases stack : s.stack with
    | nil => simp only [act, show s.unwindowed.stack = s.stack from rfl, stack]
    | cons p rest =>
      simp only [act, show s.unwindowed.stack = s.stack from rfl, stack]
      cases p.doing with
      | stateOp op =>
        cases r with
        | error e =>
          exact lift (unwindowed_failed { s with stack := rest } p e)
        | ok handled => cases handled <;> rfl
      | _ => rfl

/-- The calls the interpreter makes in an action pass their arguments inside the window. -/
def PassesInside (F : FloatOps) (s : Sys) (a : Action) : Prop :=
  ∀ sizes expires p rest, a = .run sizes expires → s.stack = p :: rest → p.doing = .interpreting →
    s.vm.PassesInside F p.exitDepth

/-- A VM that is about to interpret is at a spot in the code. -/
lemma Reachable.interprets (r : s.Reachable F) {p : Pending} {rest : List Pending}
    (here : s.stack = p :: rest) (doing : p.doing = .interpreting) :
    s.vm.Aimed (fun progs spot => spot.Fits progs) p.exitDepth
      (s.vm.core.context.unwind s.vm.core.resets p.exitDepth) := by
  obtain ⟨saved, entry⟩ : ∃ saved, p.restore = .entry saved := by
    cases restore : p.restore with
    | entry saved => exact ⟨saved, rfl⟩
    | prnum n =>
      have direct := r.base.direct p (here ▸ List.mem_cons_self) n restore
      rw [doing] at direct
      cases direct
  exact r.fits.vm r.base here entry

/-- Where every program has five globals, every call passes its arguments inside. -/
lemma passesInside_of_wide (r : s.Reachable F) (wide : ∀ ps ∈ s.vm.core.progs, 5 ≤ ps.numGlobals)
    (a : Action) : s.PassesInside F a := by
  rintro sizes expires p rest rfl here doing last resumes view chunk n a at'
  obtain ⟨moved, aimed⟩ := resumes.aimed spotRule_fits (r.interprets here doing)
  obtain ⟨runs, regions, spotted, atop⟩ := aimed.fresh
  rw [view] at runs
  have going := @going_runFor _ spotRule_fits F .window last.core.trace p.exitDepth last.fresh _ runs
    regions spotted atop chunk n
  rw [at'] at going
  have going : a.Going _ p.exitDepth _ last.fresh := going
  have progs : a.core.progs = s.vm.core.progs :=
    congrArg Core.Fixed.progs (moved.trans (last.moved_fresh.trans going.moved)).fixed
  refine At.passesInside_of_wide (runs.plain going.moved.plain) going.loaded ?_
  rw [progs]
  exact wide

/-- A run action is the same with the window off, if calls pass their arguments inside. -/
lemma run_unwindowed (r : s.Reachable F) {sizes : List Nat} {expires : Bool}
    (passes : s.PassesInside F (.run sizes expires)) :
    s.unwindowed.actIdleReset F (.run sizes expires) = (s.actIdleReset F (.run sizes expires)).map unwindowed := by
  rw [actIdleReset_of_ne (by nofun), actIdleReset_of_ne (by nofun)]
  cases stack : s.stack with
  | nil => simp only [act, show s.unwindowed.stack = s.stack from rfl, stack, Option.map_none]
  | cons p rest =>
    simp only [act, show s.unwindowed.stack = s.stack from rfl, stack,
      show s.unwindowed.vm.deadline = s.vm.deadline from rfl]
    split
    next => rfl
    next busy =>
      have doing : p.doing = .interpreting := by
        by_contra other
        exact busy (.inl other)
      have same := Vm.runChunks_unwindowed (r.interprets stack doing)
        (passes sizes expires p rest rfl stack doing) expires sizes
      show some (onVerdict { s.unwindowed with
        vm := (Vm.runChunks F p.exitDepth expires sizes s.vm.unwindowed).2, stack := rest } p
        (Vm.runChunks F p.exitDepth expires sizes s.vm.unwindowed).1) = _
      rw [same]
      exact congrArg some (unwindowed_onVerdict ⟨_, rest, s.events⟩ p _)

/-- A sequence of actions, with the window off in each of them. -/
def actsWhole (F : FloatOps) : List Action → Sys → Option Sys
  | [], s => some s
  | a :: as, s => (s.unwindowed.actIdleReset F a).bind (actsWhole F as)

/-- With the window off in each action it does not matter whether it is on at the start. -/
lemma actsWhole_congr (same : s.unwindowed = t.unwindowed) (as : List Action) :
    (s.actsWhole F as).map unwindowed = (t.actsWhole F as).map unwindowed := by
  cases as with
  | nil => exact congrArg some same
  | cons a as =>
    unfold actsWhole
    rw [same]

/-- The window is not observable: with it and without it, every sequence of actions comes to the same
system, up to the window, as long as calls pass their arguments inside it. -/
theorem window_exact (r : s.Reachable F) {as : List Action} (along : s.Along F (PassesInside F) as) :
    (s.actsWhole F as).map unwindowed = (s.actsIdleReset F as).map unwindowed := by
  induction as generalizing s with
  | nil => rfl
  | cons a as ih =>
    have first : (s.unwindowed.actIdleReset F a).map unwindowed = (s.actIdleReset F a).map unwindowed := by
      cases a with
      | run sizes expires =>
        rw [run_unwindowed r along.1, Option.map_map]
        rfl
      | _ => exact act_unwindowed nofun
    unfold actsWhole actsIdleReset
    cases on : s.actIdleReset F a with
    | none =>
      rw [on, Option.map_none, Option.map_eq_none_iff] at first
      rw [first]
      rfl
    | some m =>
      rw [on, Option.map_some, Option.map_eq_some_iff] at first
      obtain ⟨m', off, same⟩ := first
      rw [off]
      show (m'.actsWhole F as).map unwindowed = (m.actsIdleReset F as).map unwindowed
      rw [actsWhole_congr same]
      exact ih (r.act on) (along.2 m on)

/-- A function that calls another one with two arguments in registers. -/
def Asm.registerCall : Asm where
  statements := [⟨0, 0, 0, 0, none⟩, ⟨106, 28, 29, 32, none⟩, ⟨0, 0, 0, 0, none⟩, ⟨0, 0, 0, 0, none⟩]
  functions := [⟨0, 0, 0, 0, 0, 0, []⟩, ⟨1, 0, 0, 0, 0, 0, []⟩, ⟨3, 0, 0, 0, 0, 2, [3, 3]⟩]
  globals := List.replicate 28 0 ++ [2, 1, 2, 3, 4, 5, 6]
  strings := [0]

/-- The call returns, with the window and without it. -/
theorem window_exact_registerCall : ∃ s t : Sys, s.vm.window = true ∧
    s.actsIdleReset .onZero [.run [] false] = some t ∧ t.stack = [] ∧
    (s.actsWhole .onZero [.run [] false]).map unwindowed = some t.unwindowed := by
  have test : (Asm.registerCall.boot .none .menu).any (fun vm =>
      (vm.start.actsIdleReset .onZero callFirst).any fun s => s.vm.window &&
        s.vm.core.progs.all (fun ps => decide (5 ≤ ps.numGlobals)) &&
        (s.actsIdleReset .onZero [.run [] false]).any fun t => t.stack.isEmpty) = true := by
    decide +kernel
  obtain ⟨vm, boot, test⟩ := (Option.any_eq_true _ _).mp test
  obtain ⟨s, acts, test⟩ := (Option.any_eq_true _ _).mp test
  simp only [Bool.and_eq_true, List.all_eq_true, decide_eq_true_eq] at test
  obtain ⟨⟨window, wide⟩, test⟩ := test
  obtain ⟨t, ran, done⟩ := (Option.any_eq_true _ _).mp test
  have r : s.Reachable .onZero := reachable_boot boot acts
  have same := @window_exact .onZero s r [.run [] false]
    ⟨passesInside_of_wide r wide _, fun _ _ => trivial⟩
  rw [ran] at same
  exact ⟨s, t, window, ran, List.isEmpty_iff.mp done, same⟩

end Sys

end Qcvm

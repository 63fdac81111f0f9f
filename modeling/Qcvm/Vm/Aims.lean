import Qcvm.Vm.Chunks
import Qcvm.Vm.Spots

/-!
# Where pending calls go on

A host call that has not returned runs QuakeC above its exit depth, and what is below it belongs to
the calls it is nested in. `Aims` says that at every level the registers and the callers are at spots
with a property; every action keeps that, if threads are captured by builtins QuakeC called.
-/

namespace Qcvm

open Lib

/-- The progs of the function that runs: a builtin that is called directly runs in its own progs. -/
def runningProgs : List Pending → Nat → Nat
  | [], prnum => prnum
  | p :: rest, prnum =>
    match p.restore with
    | .entry _ => prnum
    | .prnum saved => runningProgs rest saved

/-- At every level of pending calls the registers and the callers are at spots with a property; the
outermost one runs no QuakeC. -/
inductive Aims (reset : Bool) (P : Spot → Prop) : List Pending → Nat → Context → Prop where
  | idle {depth : Nat} {c : Context} : c.frames = [] → Aims reset P [] depth c
  | entry {p : Pending} {rest : List Pending} {saved : Nat} {c : Context} : p.restore = .entry saved →
    p.exitDepth < c.frames.length → c.Spotted P p.exitDepth →
    Aims reset P rest saved (c.unwind reset p.exitDepth) → Aims reset P (p :: rest) p.exitDepth c
  | direct {p : Pending} {rest : List Pending} {saved depth : Nat} {c : Context} :
    p.restore = .prnum saved → c.frames.length ≤ p.exitDepth →
    Aims reset P rest depth { c with x := { c.x with prnum := saved } } →
    Aims reset P (p :: rest) depth c

/-- What holds of spots of a list of progs holds of them when a progs was added. -/
def SpotsGrow (R : List ProgsState → Spot → Prop) : Prop :=
  ∀ {progs : List ProgsState} {ps : ProgsState} {names : List (List Byte)} {s : Spot}, R progs s →
    R ((progs ++ [ps]).map (·.share names)) s

namespace Context

variable {P P' : Spot → Prop} {reset : Bool} {depth : Nat} {c c' : Context}

/-- Spots with a property have every weaker one. -/
lemma Spotted.mono (h : c.Spotted P depth) (more : ∀ s, P s → P' s) : c.Spotted P' depth :=
  ⟨more _ h.x, fun f mem => more _ (h.frames f mem)⟩

/-- The first function above a depth has no callers above it. -/
lemma Spotted.first (x : P c.x.spot) (length : c.frames.length ≤ depth + 1) : c.Spotted P depth := by
  refine ⟨x, ?_⟩
  rw [Nat.sub_eq_zero_of_le length]
  exact fun _ mem => absurd mem List.not_mem_nil

/-- A context that settles is at spots, if resetting a switch keeps their property. -/
lemma Spotted.settle (h : c.Spotted P depth) (resets : ∀ s, P s → P { s with switchRef := 0 }) :
    (c.settle reset).Spotted P depth := by
  refine h.with ?_ rfl
  cases reset with
  | true => exact resets _ h.x
  | false => exact h.x

end Context

namespace Aims

variable {P P' : Spot → Prop} {reset : Bool} {depth : Nat} {c c' : Context} {p q : Pending}
variable {stack rest : List Pending}

/-- Aims with a property are aims with every weaker one. -/
lemma mono (h : Aims reset P stack depth c) (more : ∀ s, P s → P' s) :
    Aims reset P' stack depth c := by
  induction h with
  | idle none => exact .idle none
  | entry restore deep spotted _ ih => exact .entry restore deep (spotted.mono more) ih
  | direct restore le _ ih => exact .direct restore le ih

/-- A switch may start anew. -/
lemma settle (h : Aims reset P stack depth c) (resets : ∀ s, P s → P { s with switchRef := 0 }) :
    Aims reset P stack depth (c.settle reset) := by
  induction h with
  | idle none => exact .idle none
  | @entry p rest saved c restore deep spotted below _ =>
    have same : c.Same (c.settle reset) := ⟨rfl, rfl, rfl, rfl, rfl, rfl⟩
    refine .entry restore deep (spotted.settle resets) ?_
    rw [same.unwind deep]
    exact below
  | direct restore le _ ih => exact .direct restore le ih

/-- What the innermost call does with control does not matter. -/
lemma redo (h : Aims reset P (p :: rest) depth c) (exitDepth : q.exitDepth = p.exitDepth)
    (restore : q.restore = p.restore) : Aims reset P (q :: rest) depth c := by
  cases h with
  | entry entry deep spotted below =>
    rw [← exitDepth] at deep spotted below ⊢
    exact .entry (restore.trans entry) deep spotted below
  | direct direct le below =>
    rw [← exitDepth] at le
    exact .direct (restore.trans direct) le below

/-- A call runs elsewhere above its exit depth. -/
lemma runs (h : Aims reset P (p :: rest) depth c) {saved : Nat} (entry : p.restore = .entry saved)
    (deep : p.exitDepth < c'.frames.length)
    (unwinds : c'.unwind reset p.exitDepth = c.unwind reset p.exitDepth)
    (spotted : c'.Spotted P p.exitDepth) : Aims reset P (p :: rest) depth c' := by
  cases h with
  | entry restore _ _ below =>
    refine .entry restore deep spotted ?_
    rw [unwinds]
    exact below
  | direct restore =>
    rw [entry] at restore
    cases restore

/-- The function that runs and its callers are at spots. -/
lemma captured (h : Aims reset P stack depth c) (some : depth < c.frames.length) :
    Context.Spotted P depth { c with x := { c.x with prnum := runningProgs stack c.x.prnum } } := by
  induction h with
  | idle none =>
    rw [none] at some
    exact absurd some (Nat.not_lt_zero _)
  | entry restore _ spotted _ =>
    unfold runningProgs
    rw [restore]
    exact spotted
  | direct restore _ _ ih =>
    unfold runningProgs
    rw [restore]
    exact ih some

/-- The innermost call runs above its exit depth. -/
lemma innermost (h : Aims reset P (p :: rest) depth c) {saved : Nat} (entry : p.restore = .entry saved) :
    p.exitDepth < c.frames.length ∧ c.Spotted P p.exitDepth := by
  cases h with
  | entry _ deep spotted _ => exact ⟨deep, spotted⟩
  | direct restore =>
    rw [entry] at restore
    cases restore

/-- Where nothing waits, no QuakeC runs. -/
lemma idle_frames (h : Aims reset P [] depth c) : c.frames = [] := by
  cases h with
  | idle none => exact none

/-- A call ends. -/
lemma close {core core' : Core} (h : Aims core.resets P (p :: rest) core.entryDepth core.context)
    (settled : p.Settled core core') :
    Aims core.resets P rest (p.close core').entryDepth (p.close core').context := by
  obtain ⟨exitDepth, doing, restore, origin⟩ := p
  generalize depth' : core.entryDepth = depth at h
  generalize context' : core.context = c at h
  cases h with
  | entry entry deep spotted below =>
    subst context'
    cases entry
    have unwound : core' = core.unwind exitDepth := by
      refine settled.resolve_left fun ⟨_, landed⟩ => ?_
      rcases landed with le | ⟨n, direct⟩
      · exact absurd deep (Nat.not_lt_of_le le)
      · cases direct
    rw [← core.context_unwind, ← unwound] at below
    cases origin <;> exact below
  | @direct _ _ saved _ _ direct le below =>
    subst context' depth'
    cases direct
    have same : core'.context = core.context ∧ core'.entryDepth = core.entryDepth := by
      rcases settled with ⟨rfl, -⟩ | rfl
      · exact ⟨rfl, rfl⟩
      · refine ⟨?_, congrArg Core.Fixed.entryDepth (core.moved_unwind exitDepth).fixed⟩
        rw [core.context_unwind]
        exact Context.unwind_of_le le
    rw [← same.1, ← same.2] at below
    cases origin <;> exact below

end Aims

namespace Core

/-- A host operation adds a progs, if it changes them. -/
lemma progs_host (F : FloatOps) (core : Core) (builtins : Builtins) (op : HostOp) :
    (core.host F builtins op).progs = core.progs ∨
      ∃ (ps : ProgsState) (names : List (List Byte)),
        (core.host F builtins op).progs = (core.progs ++ [ps]).map (·.share names) := by
  have hosted : Hosted F op core (core.host F builtins op) := core.hosted op
  rcases hosted.progs with ⟨same, -⟩ | ⟨loaded, reserved, rfl⟩
  · exact .inl same
  · have joins : core.host F builtins (.addProgs loaded reserved)
        = (core.addProgs F loaded.program builtins reserved).2 := rfl
    rw [joins]
    rcases addProgs_cases F core loaded.program builtins reserved with
      ⟨-, _, e⟩ | ⟨map, fields, fieldBytes, -, -, -, ⟨-, e⟩ | ⟨-, e⟩⟩
    · rw [e]
      exact .inl rfl
    · rw [e]
      exact .inl rfl
    · rw [e]
      obtain ⟨names, progs⟩ := core.progs_joined F loaded.program builtins map fields fieldBytes
      exact .inr ⟨_, names, progs⟩

variable {P : Spot → Prop} {depth : Nat} {core core' : Core}

/-- What a thread captures is at spots. -/
lemma spotted_snapshot {wake : Word} {resume : Word × Word × Word} {t : Thread}
    (e : core.snapshot wake resume = some t) :
    core.entryDepth < core.frames.length ∧
      (core.context.Spotted P core.entryDepth → ∀ a ∈ t.chain, P a.spot) := by
  unfold snapshot at e
  obtain ⟨root, found, e⟩ := Option.bind_eq_some_iff.mp e
  obtain ⟨top, -, e⟩ := Option.bind_eq_some_iff.mp e
  obtain ⟨stack, -, e⟩ := Option.bind_eq_some_iff.mp e
  obtain ⟨⟨locals, data⟩, -, e⟩ := Option.bind_eq_some_iff.mp e
  cases e
  obtain ⟨lt, -⟩ := List.getElem?_eq_some_iff.mp found
  rw [List.length_reverse] at lt
  refine ⟨lt, fun spotted a mem => ?_⟩
  rcases List.mem_append.mp mem with above | here
  · obtain ⟨f, caller, rfl⟩ := List.mem_map.mp above
    rw [List.drop_reverse, List.mem_reverse] at caller
    exact spotted.frames f caller
  · obtain rfl := List.mem_singleton.mp here
    exact spotted.x

/-- The functions of a thread are entered at spots. -/
lemma spotted_enterChain {chain : List Activation} {resumePc : Nat} (at' : ∀ a ∈ chain, P a.spot)
    (h : (core.contextAt resumePc).Spotted P depth)
    (e : enterChain chain resumePc core = (.ok (), core')) : core'.context.Spotted P depth := by
  induction chain generalizing core resumePc with
  | nil =>
    cases e
    exact h
  | cons a chain ih =>
    obtain ⟨here, rest⟩ := List.forall_mem_cons.mp at'
    simp only [enterChain] at e
    split at e
    next => cases e
    next entered e' =>
      obtain ⟨ps, f, enters⟩ := enters e'
      refine ih rest ?_ e
      have caller : P (core.saveFrame resumePc (core.x.lsTop + core.x.pushed)).spot := h.x
      refine h.enter ?_ caller enters.frames
      have prnum : entered.x.prnum = a.prnum := congrArg Exec.prnum enters.x
      show P ⟨entered.x.prnum, a.pc, a.switchRef⟩
      rw [prnum]
      exact here

/-- A resumed thread is at a spot, and so are its callers. -/
lemma spotted_resumeThread {thread : Thread} (some : thread.chain ≠ [])
    (at' : ∀ a ∈ thread.chain, P a.spot) (e : core.resumeThread thread = (.ok (), core')) :
    core'.context.Spotted P core.frames.length := by
  obtain ⟨a, chain, split⟩ := List.exists_cons_of_ne_nil some
  unfold resumeThread at e
  dsimp only at e
  rw [split] at at' e
  obtain ⟨here, rest⟩ := List.forall_mem_cons.mp at'
  simp only [enterChain] at e
  split at e
  next => cases e
  next resumed entered =>
    cases e
    split at entered
    next => cases entered
    next first e =>
      obtain ⟨ps, f, enters⟩ := enters e
      have prnum : first.x.prnum = a.prnum := congrArg Exec.prnum enters.x
      have start : (Core.contextAt { first with x := { first.x with
          pushed := a.pushed, switchRef := a.switchRef, switchKind := a.switchKind } } a.pc).Spotted P
          core.frames.length := by
        refine .first ?_ ?_
        · show P ⟨first.x.prnum, a.pc, a.switchRef⟩
          rw [prnum]
          exact here
        · show first.frames.length ≤ core.frames.length + 1
          rw [enters.frames, List.length_cons]
      exact (spotted_enterChain rest start entered).congr rfl rfl

end Core

/-! ## Runs -/

namespace Vm

/-- What the interpreter needs of a VM to run to its stop. -/
structure Ready (vm : Vm) : Prop where
  whole : vm.core.Runs .whole
  window : vm.window = windowFits vm.core

/-- A run stopped at a spot, or returned from one. -/
def Ended (R : List ProgsState → Spot → Prop) (exitDepth : Nat) (base : Context) (vm : Vm)
    (r : Verdict × Vm) : Prop :=
  (r.1 ≠ .exit .returned ∧ r.2.core.context.Spotted (R vm.core.progs) exitDepth) ∨
    (r.1 = .exit .returned ∧ ∃ last : Core, vm.core.Moved last ∧
      last.Over vm.core.resets exitDepth base ∧ last.context.Spotted (R vm.core.progs) exitDepth ∧
      r.2.core = last.unwind exitDepth)

variable {R : List ProgsState → Spot → Prop} {F : FloatOps} {exitDepth : Nat} {base : Context}
variable {vm : Vm}

/-- Starting a run is a move. -/
lemma moved_fresh (vm : Vm) : vm.core.Moved vm.fresh := by
  unfold fresh
  split
  next => exact .refl _
  next => exact .of_eq rfl rfl

/-- Starting a run keeps the context. -/
lemma context_fresh (vm : Vm) : vm.fresh.context = vm.core.context := by
  unfold fresh
  split <;> rfl

/-- A VM that is ready runs in its view. -/
lemma Ready.runs (h : vm.Ready) : vm.fresh.Runs vm.view := by
  have runs : vm.core.Runs vm.view := by
    refine ⟨h.whole.linked, h.whole.small, fun view => ?_⟩
    rw [← h.window]
    unfold Vm.view at view
    split at view
    next both => exact (Bool.and_eq_true_iff.mp both).2
    next => cases view
  exact runs.plain vm.moved_fresh.plain

/-- A run keeps a VM ready. -/
lemma Ready.ran {r : Verdict × Vm} (h : vm.Ready) (ran : Ran exitDepth vm r) : r.2.Ready where
  whole := h.whole.plain ran.core.plain
  window := ran.window.trans (h.window.trans ran.core.plain.windowFits.symm)

/-- The VM is about to run the interpreter at a spot, above an exit depth. -/
structure Aimed (R : List ProgsState → Spot → Prop) (exitDepth : Nat) (base : Context) (vm : Vm) :
    Prop where
  ready : vm.Ready
  regions : vm.core.mem.Regions
  spotted : vm.core.context.Spotted (R vm.core.progs) exitDepth
  atop : vm.core.Over vm.core.resets exitDepth base

/-- Between the chunks of a run. -/
inductive Resumes (F : FloatOps) (exitDepth : Nat) : Vm → Vm → Prop where
  | here (vm : Vm) : Resumes F exitDepth vm vm
  | chunk {vm next last : Vm} (n : Nat) : vm.runChunk F exitDepth n = (.more, next) →
    Resumes F exitDepth next last → Resumes F exitDepth vm last

/-- The interpreter starts where the VM is. -/
lemma Aimed.fresh (h : vm.Aimed R exitDepth base) :
    vm.fresh.Runs vm.view ∧ vm.fresh.mem.Regions ∧
      vm.fresh.context.Spotted (R vm.fresh.progs) exitDepth ∧
      vm.fresh.Over vm.fresh.resets exitDepth base := by
  have fresh := vm.moved_fresh
  refine ⟨h.ready.runs, fresh.regions h.regions, ?_, ?_⟩
  · rw [vm.context_fresh, show vm.fresh.progs = vm.core.progs from congrArg Core.Fixed.progs fresh.fixed]
    exact h.spotted
  · rw [fresh.resets]
    refine h.atop.same ?_
    rw [vm.context_fresh]
    exact .refl _

variable (rule : SpotRule R)
include rule

/-- A chunk of the budget stops at a spot, or returns from one. -/
lemma ended_runChunk (h : vm.Aimed R exitDepth base) (chunk : Nat) :
    vm.Ended R exitDepth base (vm.runChunk F exitDepth chunk) := by
  have fresh := vm.moved_fresh
  have progs : vm.fresh.progs = vm.core.progs := congrArg Core.Fixed.progs fresh.fixed
  obtain ⟨runs, regions, spotted, atop⟩ := h.fresh
  have ended : (vm.interpret F exitDepth chunk).Ended R exitDepth base vm.fresh := by
    rw [interpret_eq]
    exact aimed_run rule runs regions spotted atop chunk
  unfold Stop.Ended at ended
  rw [progs, fresh.resets] at ended
  unfold runChunk
  dsimp only
  rcases ended with ⟨other, spotted⟩ | ⟨returned, last, moved, atop, spotted, unwound⟩
  · split
    next =>
      split
      next => exact .inl ⟨nofun, spotted⟩
      next => exact .inl ⟨nofun, spotted⟩
    next => exact .inl ⟨fun returned => other (Verdict.exit.inj returned), spotted⟩
  · rw [returned]
    exact .inr ⟨rfl, last, fresh.trans moved, atop, spotted, unwound⟩

/-- After a chunk the run goes on at a spot. -/
lemma Aimed.more (h : vm.Aimed R exitDepth base) {chunk : Nat} {next : Vm}
    (e : vm.runChunk F exitDepth chunk = (.more, next)) :
    vm.core.Moved next.core ∧ next.Aimed R exitDepth base := by
  have ended : vm.Ended R exitDepth base (vm.runChunk F exitDepth chunk) :=
    ended_runChunk rule h chunk
  have lands : vm.Lands exitDepth base (vm.runChunk F exitDepth chunk) :=
    lands_runChunk h.regions h.atop chunk
  have ran : Ran exitDepth vm (vm.runChunk F exitDepth chunk) := vm.ran_runChunk h.regions chunk
  have ready := h.ready.ran ran
  rw [e] at ended lands ran ready
  refine ⟨ran.core, ready, ran.core.regions h.regions, ?_, ?_⟩
  · rw [show next.core.progs = vm.core.progs from congrArg Core.Fixed.progs ran.core.fixed]
    exact (ended.resolve_right fun ⟨returned, _⟩ => by cases returned).2
  · rw [show next.core.resets = vm.core.resets from ran.core.resets]
    exact (lands.resolve_right fun ⟨returned, _⟩ => by cases returned).2

/-- A sequence of chunks stops at a spot, or returns from one. -/
lemma ended_runChunks (h : vm.Aimed R exitDepth base) (expires : Bool) (sizes : List Nat) :
    vm.Ended R exitDepth base (runChunks F exitDepth expires sizes vm) := by
  induction sizes generalizing vm with
  | nil => exact ended_runChunk rule h vm.budget
  | cons size sizes ih =>
    have first : vm.Ended R exitDepth base (vm.runChunk F exitDepth (min vm.budget size)) :=
      ended_runChunk rule h _
    unfold runChunks
    split
    next next e =>
      rw [e] at first
      obtain ⟨moved, goesOn⟩ := h.more rule e
      split
      next => exact .inl ⟨nofun, (first.resolve_right fun ⟨returned, _⟩ => by cases returned).2⟩
      next =>
        have same : next.core.resets = vm.core.resets := moved.resets
        have progs : next.core.progs = vm.core.progs := congrArg Core.Fixed.progs moved.fixed
        rcases ih goesOn with ⟨other, spotted⟩ | ⟨returned, last, rest, atop, spotted, unwound⟩
        · exact .inl ⟨other, progs ▸ spotted⟩
        · exact .inr ⟨returned, last, moved.trans rest, same ▸ atop, progs ▸ spotted, unwound⟩
    next => exact first

/-- Between the chunks of a run the VM is at a spot. -/
lemma Resumes.aimed {last : Vm} (r : Resumes F exitDepth vm last) (h : vm.Aimed R exitDepth base) :
    vm.core.Moved last.core ∧ last.Aimed R exitDepth base := by
  induction r with
  | here vm => exact ⟨.refl _, h⟩
  | chunk n e _ ih =>
    obtain ⟨moved, goesOn⟩ := h.more rule e
    obtain ⟨rest, aimed⟩ := ih goesOn
    exact ⟨moved.trans rest, aimed⟩

end Vm

/-! ## Actions -/

/-- A thread goes on at spots. -/
def Thread.Spotted (P : Spot → Prop) (t : Thread) : Prop := t.chain ≠ [] ∧ ∀ a ∈ t.chain, P a.spot

namespace Sys

variable {R : List ProgsState → Spot → Prop} {F : FloatOps} {s t : Sys}

/-- QuakeC is at spots, at every level of the pending calls, and so are the threads. -/
structure Aimed (R : List ProgsState → Spot → Prop) (s : Sys) : Prop where
  blocks : s.vm.core.Blocks
  windowed : s.Windowed
  threads : s.AllThreads (Thread.Spotted (R s.vm.core.progs))
  aims : Aims s.vm.core.resets (R s.vm.core.progs) s.stack s.vm.core.entryDepth s.vm.core.context

/-- `run_threads` has the threads `queue` in hand. -/
structure AimedWaking (R : List ProgsState → Spot → Prop) (queue : List Thread) (s : Sys) : Prop where
  blocks : s.vm.core.Blocks
  windowed : s.Windowed
  threads : s.AllThreads (Thread.Spotted (R s.vm.core.progs))
  queue : ∀ t ∈ queue, Thread.Spotted (R s.vm.core.progs) t
  idle : s.vm.core.frames = []

/-- A plain change keeps the aims, if those of the calls and the threads are kept. -/
lemma Aimed.plain (h : s.Aimed R) (p : s.vm.core.Plain t.vm.core) (flag : t.vm.window = s.vm.window)
    (threads : t.AllThreads (Thread.Spotted (R s.vm.core.progs)))
    (aims : Aims s.vm.core.resets (R s.vm.core.progs) t.stack t.vm.core.entryDepth t.vm.core.context) :
    t.Aimed R := by
  have resets : t.vm.core.resets = s.vm.core.resets :=
    congrArg (fun config : VmConfig => config.compat.switchResetOnCall) p.config
  refine ⟨(Core.blocks_invariant .onZero).plain h.blocks p, h.windowed.plain p flag, ?_, ?_⟩
  · rw [p.progs]
    exact threads
  · rw [p.progs, resets]
    exact aims

/-- A plain change between calls that takes threads in hand keeps the aims. -/
lemma Aimed.waking {queue : List Thread} (h : s.Aimed R) (p : s.vm.core.Plain t.vm.core)
    (flag : t.vm.window = s.vm.window) (threads : t.AllThreads (Thread.Spotted (R s.vm.core.progs)))
    (queued : ∀ t ∈ queue, Thread.Spotted (R s.vm.core.progs) t) (idle : t.vm.core.frames = []) :
    t.AimedWaking R queue := by
  refine ⟨(Core.blocks_invariant .onZero).plain h.blocks p, h.windowed.plain p flag, ?_, ?_, idle⟩
  · rw [p.progs]
    exact threads
  · rw [p.progs]
    exact queued

/-- A call that begins while threads are woken keeps the aims. -/
lemma AimedWaking.aimed {queue : List Thread} (h : s.AimedWaking R queue)
    (p : s.vm.core.Plain t.vm.core) (flag : t.vm.window = s.vm.window)
    (threads : t.AllThreads (Thread.Spotted (R s.vm.core.progs)))
    (aims : Aims s.vm.core.resets (R s.vm.core.progs) t.stack t.vm.core.entryDepth t.vm.core.context) :
    t.Aimed R := by
  have resets : t.vm.core.resets = s.vm.core.resets :=
    congrArg (fun config : VmConfig => config.compat.switchResetOnCall) p.config
  refine ⟨(Core.blocks_invariant .onZero).plain h.blocks p, h.windowed.plain p flag, ?_, ?_⟩
  · rw [p.progs]
    exact threads
  · rw [p.progs, resets]
    exact aims

/-- A plain change while threads are woken keeps the aims. -/
lemma AimedWaking.plain {queue queue' : List Thread} (h : s.AimedWaking R queue)
    (p : s.vm.core.Plain t.vm.core) (flag : t.vm.window = s.vm.window)
    (threads : t.AllThreads (Thread.Spotted (R s.vm.core.progs)))
    (queued : ∀ t ∈ queue', Thread.Spotted (R s.vm.core.progs) t) (idle : t.vm.core.frames = []) :
    t.AimedWaking R queue' := by
  refine ⟨(Core.blocks_invariant .onZero).plain h.blocks p, h.windowed.plain p flag, ?_, ?_, idle⟩
  · rw [p.progs]
    exact threads
  · rw [p.progs]
    exact queued

/-- Threads that are not captured keep their spots. -/
lemma spotted_rules (F : FloatOps) (P : Spot → Prop) (a : Action) (still : ∀ op, a ≠ .host op) :
    Rules F a (AllThreads (Thread.Spotted P)) (AllThreads (Thread.Spotted P))
      fun queue s => s.AllThreads (Thread.Spotted P) ∧ ∀ t ∈ queue, Thread.Spotted P t :=
  allThreads_rules a fun op host => absurd host (still op)

/-- A calm change keeps the aims. -/
lemma Aimed.calm (h : s.Aimed R) (c : s.Calm t) : t.Aimed R := by
  refine h.plain c.core.toPlain c.window (h.threads.calm c) ?_
  have context : t.vm.core.context = s.vm.core.context :=
    congrArg Control.toContext c.core.control
  have depth : t.vm.core.entryDepth = s.vm.core.entryDepth := congrArg Control.entryDepth c.core.control
  rw [c.stack, context, depth]
  exact h.aims

/-- Every action keeps the spots, but runs, and what may change the progs. -/
lemma aimed_rules (rule : SpotRule R) (a : Action) (still : ∀ sizes expires, a ≠ .run sizes expires)
    (same : a ≠ .reset ∧ ∀ op, a ≠ .host op) :
    Rules F a (Aimed R) (Aimed R) (AimedWaking R) where
  weaken h := h
  calm h c := h.calm c
  calmAfter h c := h.calm c
  calmQueue {queue s t} h c := by
    have context : t.vm.core.context = s.vm.core.context :=
      congrArg Control.toContext c.core.control
    refine h.plain c.core.toPlain c.window (h.threads.calm c) h.queue ?_
    exact (congrArg Context.frames context).trans h.idle
  fund h _ := ⟨h.blocks, h.windowed, ⟨h.threads.asleep, h.threads.inHand⟩, h.aims⟩
  fundQueue h _ := ⟨h.blocks, h.windowed, ⟨h.threads.asleep, h.threads.inHand⟩, h.queue, h.idle⟩
  host {s op} here _ _ _ := absurd here (same.2 op)
  reset here _ _ _ := absurd here same.1
  enter {s f args argc topLevel pr entered} here h b host e := by
    have moved := Core.moved_enter (s.vm.core.nested argc) f.progs f.index s.vm.core.x.pc
    rw [e] at moved
    obtain ⟨ps, func, enters⟩ := Core.enters e
    refine h.plain ⟨moved.plain.shape, moved.plain.progs, moved.plain.fields, moved.plain.config⟩ rfl
      ((spotted_rules F _ a same.2).enter here h.threads b host e) ?_
    have small : s.vm.core.mem.s.size ≤ u32Max := b.layout.mem.small
    have found : s.vm.core.lookupFunc f.progs f.index = some (ps, func) := enters.found
    -- The new level starts at the entry; below it the caller is as it was, up to a reset switch.
    have atop := enters.over s.vm.core.resets (Nat.le_refl s.vm.core.frames.length)
    refine .entry rfl atop.deep (.first ?_ ?_) ?_
    · show R s.vm.core.progs entered.x.spot
      rw [enters.x]
      exact rule.entry h.blocks.toLinked small found
    · show entered.frames.length ≤ _
      rw [enters.frames]
      exact Nat.le_refl _
    · have settled := h.aims.settle fun _ => rule.reset
      have unwinds : entered.context.unwind s.vm.core.resets s.vm.core.frames.length
          = s.vm.core.context.settle s.vm.core.resets :=
        atop.unwinds.trans (Context.unwind_of_le (Nat.le_refl s.vm.core.frames.length))
      rw [← unwinds] at settled
      exact settled
  direct {s f args argc topLevel pr} here h b host := by
    refine h.plain ⟨rfl, rfl, rfl, rfl⟩ rfl ((spotted_rules F _ a same.2).direct here h.threads b host) ?_
    exact .direct rfl (Nat.le_refl _) h.aims
  run here _ _ _ _ _ := absurd here (still _ _)
  builtin {s p rest saved func} h b e doing entry := by
    refine h.plain ⟨rfl, rfl, rfl, rfl⟩ rfl
      ((spotted_rules F _ a same.2).builtin h.threads b e doing entry) ?_
    have aims := h.aims
    rw [e] at aims
    exact aims.redo rfl rfl
  doing {s p rest saved doing} h b e entry := by
    refine h.plain (.refl _) rfl ((spotted_rules F _ a same.2).doing h.threads b e entry) ?_
    have aims := h.aims
    rw [e] at aims
    exact aims.redo rfl rfl
  close {s p rest core argc builtin topLevel pr} h b e origin settled := by
    refine h.plain (settled.moved.plain.trans (p.plain_close core)) rfl
      ((spotted_rules F _ a same.2).close h.threads b e origin settled) ?_
    have aims := h.aims
    rw [e] at aims
    exact aims.close settled
  closeThread {s p core queue ran} h b e origin settled := by
    obtain ⟨threads, queued⟩ := (spotted_rules F _ a same.2).closeThread h.threads b e origin settled
    have aims := h.aims
    rw [e] at aims
    refine h.waking (settled.moved.plain.trans (p.plain_close core)) rfl threads queued ?_
    exact (aims.close settled).idle_frames
  wake {s} here h b idle := by
    obtain ⟨threads, queued⟩ := (spotted_rules F _ a same.2).wake here h.threads b idle
    have aims := h.aims
    rw [idle] at aims
    exact h.waking ⟨rfl, rfl, rfl, rfl⟩ rfl threads queued aims.idle_frames
  resume {s thread queue ran core} h b idle e := by
    have plain := Core.plain_resumeThread { s.vm.core with nesting := s.vm.core.nesting + 1 } thread
    rw [e] at plain
    obtain ⟨some, spots⟩ := h.queue thread List.mem_cons_self
    -- A thread is resumed above an idle base, to which unwinding comes back.
    obtain ⟨base, atop, settled⟩ := @Core.over_resumeThread s.vm.core.resets _ _ thread some e
    refine h.aimed ⟨plain.shape, plain.progs, plain.fields, plain.config⟩ rfl
      ((spotted_rules F _ a same.2).resume ⟨h.threads, h.queue⟩ b idle e) ?_
    have spotted := Core.spotted_resumeThread some spots e
    refine .entry rfl atop.deep (spotted.congr rfl rfl) (.idle ?_)
    show (core.context.unwind _ _).frames = []
    rw [atop.unwinds]
    exact (Context.frames_of_settle settled).trans h.idle
  stale {s thread queue kind core} h b idle e := by
    have plain := Core.plain_resumeThread { s.vm.core with nesting := s.vm.core.nesting + 1 } thread
    rw [e] at plain
    obtain ⟨threads, queued⟩ := (spotted_rules F _ a same.2).stale ⟨h.threads, h.queue⟩ b idle e
    refine h.plain ⟨plain.shape, plain.progs, plain.fields, plain.config⟩ rfl threads queued ?_
    have settled := @Core.settle_resumeThread _ _ _ thread kind rfl e
    exact (Context.frames_of_settle settled).trans h.idle
  requeue {s queue} h b idle :=
    h.aimed ⟨rfl, rfl, rfl, rfl⟩ rfl
      ((spotted_rules F _ a same.2).requeue ⟨h.threads, h.queue⟩ b idle) (.idle h.idle)
  idle {s} h b idle := by
    refine h.aimed (.refl _) rfl h.threads ?_
    rw [idle]
    exact .idle h.idle

/-- A thread the action captures goes on in the progs it ran in: a builtin of other progs that is
called directly does not suspend it. -/
def SuspendsOwn (s : Sys) (a : Action) : Prop :=
  ∀ delay resume, a = .host (.suspend delay resume) →
    runningProgs s.stack s.vm.core.x.prnum = s.vm.core.x.prnum

/-- Captured threads go on at spots, or spots are the same in all progs. -/
def CapturesOwn (R : List ProgsState → Spot → Prop) (s : Sys) (a : Action) : Prop :=
  (∀ progs spot prnum, R progs spot → R progs { spot with prnum := prnum }) ∨ s.SuspendsOwn a

/-- A host operation keeps the aims, if threads it captures go on at spots. -/
lemma Aimed.host (h : s.Aimed R) (grows : SpotsGrow R) (b : s.Base) {op : HostOp}
    (own : s.CapturesOwn R (.host op)) : Aimed R { s with vm := s.vm.host F op } := by
  have hosted : Core.Hosted F op s.vm.core (s.vm.core.host F s.vm.builtins op) := s.vm.core.hosted op
  have more (spot : Spot) (at' : R s.vm.core.progs spot) :
      R (s.vm.core.host F s.vm.builtins op).progs spot := by
    rcases Core.progs_host F s.vm.core s.vm.builtins op with same | ⟨ps, names, added⟩
    · rw [same]
      exact at'
    · rw [added]
      exact grows at'
  have spots (t : Thread) (spotted : t.Spotted (R s.vm.core.progs)) :
      t.Spotted (R (s.vm.core.host F s.vm.builtins op).progs) :=
    ⟨spotted.1, fun a mem => more _ (spotted.2 a mem)⟩
  have context : (s.vm.core.host F s.vm.builtins op).context = s.vm.core.context :=
    congrArg Control.toContext hosted.control
  have depth : (s.vm.core.host F s.vm.builtins op).entryDepth = s.vm.core.entryDepth :=
    congrArg Control.entryDepth hosted.control
  have resets : (s.vm.core.host F s.vm.builtins op).resets = s.vm.core.resets :=
    congrArg FteCompat.switchResetOnCall hosted.compat
  refine ⟨?_, h.windowed.host op, ⟨?_, ?_⟩, ?_⟩
  · rw [Vm.core_host]
    exact (Core.blocks_invariant F).host op h.blocks b.layout
  · rw [Vm.core_host]
    rcases hosted.threads with same | ⟨delay, resume, thread, suspends, taken, -, -, added⟩
    · rw [same]
      exact fun t mem => spots t (h.threads.asleep t mem)
    · rw [added]
      intro t mem
      rcases List.mem_append.mp mem with old | new
      · exact spots t (h.threads.asleep t old)
      · obtain rfl := List.mem_singleton.mp new
        have chained := chain_ne_nil _ _ _ _ taken
        obtain ⟨running, captured⟩ := @Core.spotted_snapshot (R s.vm.core.progs) _ _ _ _ taken
        refine spots t ⟨chained, captured ?_⟩
        have spotted := h.aims.captured running
        rcases own with loose | own
        · exact spotted.with (loose _ _ s.vm.core.x.prnum spotted.x) rfl
        · rw [show s.vm.core.context.x.prnum = s.vm.core.x.prnum from rfl, own _ _ (congrArg _ suspends)]
            at spotted
          exact spotted
  · rw [Vm.core_host]
    exact fun p mem queue ran origin t queued => spots t (h.threads.inHand p mem queue ran origin t queued)
  · rw [Vm.core_host, context, depth, resets]
    exact h.aims.mono more

/-- No QuakeC runs in a VM that was just built. -/
lemma aimed_built {main : Loaded} {builtins : Builtins} {config : VmConfig}
    (e : buildCore main.program builtins config = .ok s.vm.core)
    (window : s.vm.window = windowFits s.vm.core) (idle : s.stack = []) : s.Aimed R := by
  obtain ⟨sp, built⟩ := Core.built e
  refine ⟨(Core.blocks_invariant .onZero).built e, window, ⟨?_, ?_⟩, ?_⟩
  · rw [built.threads]
    exact fun _ mem => absurd mem List.not_mem_nil
  · rw [idle]
    exact fun _ mem => absurd mem List.not_mem_nil
  · rw [idle]
    exact .idle built.frames

/-- A reset between calls keeps the aims. -/
lemma Aimed.reset (h : s.Aimed R) (idle : s.stack = []) : Aimed R { s with vm := s.vm.reset } := by
  unfold Vm.reset
  split
  next core e => exact aimed_built e rfl idle
  next => exact h

/-- QuakeC of a call is about to run at a spot. -/
lemma Aimed.vm (h : s.Aimed R) (b : s.Base) {p : Pending} {rest : List Pending} {saved : Nat}
    (here : s.stack = p :: rest) (entry : p.restore = .entry saved) :
    s.vm.Aimed R p.exitDepth (s.vm.core.context.unwind s.vm.core.resets p.exitDepth) := by
  have aims := h.aims
  rw [here] at aims
  obtain ⟨deep, spotted⟩ := aims.innermost entry
  exact ⟨⟨⟨h.blocks.toLinked, b.layout.mem.small, nofun⟩, h.windowed⟩, b.layout.mem.toRegions, spotted,
    deep, rfl⟩

/-- A run of the interpreter keeps the aims. -/
lemma Aimed.run (rule : SpotRule R) (h : s.Aimed R) (b : s.Base) {sizes : List Nat} {expires : Bool}
    (e : s.actIdleReset F (.run sizes expires) = some t) : t.Base ∧ t.Aimed R := by
  refine (@aimed_rules R F rule (.finish (.ok ())) nofun ⟨nofun, nofun⟩).run_act b e
    fun p rest saved here doing entry => ?_
  have aimed := h.vm b here entry
  have aims := h.aims
  rw [here] at aims
  have ran : Vm.Ran p.exitDepth s.vm (Vm.runChunks F p.exitDepth expires sizes s.vm) :=
    Vm.ran_runChunks expires sizes s.vm aimed.regions
  have lands := @Vm.lands_runChunks F _ _ s.vm expires sizes aimed.regions aimed.atop
  -- Wherever the run is above its exit depth, what is below has not changed.
  have goesOn {vm : Vm} (moved : s.vm.core.Moved vm.core) (window : vm.window = s.vm.window)
      (o : vm.core.Over s.vm.core.resets p.exitDepth
        (s.vm.core.context.unwind s.vm.core.resets p.exitDepth))
      (spotted : vm.core.context.Spotted (R s.vm.core.progs) p.exitDepth) :
      Aimed R { s with vm := vm } := by
    refine h.plain moved.plain window (h.threads.of_eq ?_ fun _ mem => .inl mem) ?_
    · exact congrArg Core.Fixed.threads moved.fixed
    · have depth : vm.core.entryDepth = s.vm.core.entryDepth := congrArg Core.Fixed.entryDepth moved.fixed
      show Aims _ _ s.stack vm.core.entryDepth vm.core.context
      rw [here, depth]
      exact aims.runs entry o.deep o.unwinds spotted
  rcases Vm.ended_runChunks rule aimed expires sizes with
    ⟨other, spotted⟩ | ⟨returned, last, moved, atop, spotted, unwound⟩
  · have atop := (lands.resolve_right fun ⟨returned, _⟩ => other returned).2
    exact .inl ⟨other, goesOn ran.core ran.window atop spotted⟩
  · exact .inr ⟨returned, last, moved, unwound, goesOn moved ran.window atop spotted⟩

/-- Every action keeps the spots. -/
theorem aimed_act (rule : SpotRule R) (grows : SpotsGrow R) {a : Action} (h : s.Aimed R) (b : s.Base)
    (own : s.CapturesOwn R a) (e : s.actIdleReset F a = some t) : t.Aimed R := by
  cases a with
  | host op =>
    rw [actIdleReset_of_ne (by nofun)] at e
    simp only [act] at e
    split at e
    next =>
      cases e
      exact h.host grows b own
    next => cases e
  | reset =>
    obtain ⟨idle, rfl⟩ := actIdleReset_reset e
    exact h.reset idle
  | run sizes expires => exact (h.run rule b e).2
  | call f args =>
    exact ((aimed_rules rule (.call f args) (by simp)
      ⟨by simp, by simp⟩).act h b e).2
  | runThreads =>
    exact ((aimed_rules rule .runThreads (by simp)
      ⟨by simp, by simp⟩).act h b e).2
  | finish r =>
    exact ((aimed_rules rule (.finish r) (by simp)
      ⟨by simp, by simp⟩).act h b e).2
  | stateDone r =>
    exact ((aimed_rules rule (.stateDone r) (by simp)
      ⟨by simp, by simp⟩).act h b e).2

/-- Every action of a sequence is good where it is taken. -/
def Along (F : FloatOps) (good : Sys → Action → Prop) : List Action → Sys → Prop
  | [], _ => True
  | a :: as, s => good s a ∧ ∀ t, s.actIdleReset F a = some t → Along F good as t

/-- A system that good actions lead to from a new VM, none of them a reset inside a call. -/
def ReachableBy (F : FloatOps) (good : Sys → Action → Prop) (s : Sys) : Prop :=
  ∃ main builtins config vm as, Vm.new main builtins config = .ok vm ∧ vm.start.Along F good as ∧
    vm.start.actsIdleReset F as = some s

variable {good : Sys → Action → Prop}

/-- What good actions reach is reachable. -/
lemma ReachableBy.reachable (r : s.ReachableBy F good) : s.Reachable F := by
  obtain ⟨main, builtins, config, vm, as, start, -, e⟩ := r
  exact ⟨main, builtins, config, vm, as, start, e⟩

/-- Every sequence goes along actions that are all good. -/
lemma along_of_all (all : ∀ s a, good s a) (as : List Action) (s : Sys) : s.Along F good as := by
  induction as generalizing s with
  | nil => trivial
  | cons a as ih => exact ⟨all s a, fun t _ => ih t⟩

/-- What is reachable is so by actions that are all good. -/
lemma Reachable.by_all (r : s.Reachable F) (all : ∀ s a, good s a) : s.ReachableBy F good := by
  obtain ⟨main, builtins, config, vm, as, start, e⟩ := r
  exact ⟨main, builtins, config, vm, as, start, along_of_all all as _, e⟩

/-- A sequence of actions keeps the aims, if the threads they capture go on at spots. -/
lemma Aimed.acts (rule : SpotRule R) (grows : SpotsGrow R) (own : ∀ s a, good s a → s.CapturesOwn R a)
    {as : List Action} (h : s.Aimed R) (b : s.Base) (along : s.Along F good as)
    (e : s.actsIdleReset F as = some t) : t.Aimed R := by
  induction as generalizing s with
  | nil =>
    cases e
    exact h
  | cons a as ih =>
    obtain ⟨mid, first, rest⟩ := Option.bind_eq_some_iff.mp e
    exact ih (aimed_act rule grows h b (own s a along.1) first) (b.act first) (along.2 mid first) rest

/-- QuakeC is at spots in every system that actions reach which capture its own threads. -/
theorem ReachableBy.aimed (rule : SpotRule R) (grows : SpotsGrow R)
    (own : ∀ s a, good s a → s.CapturesOwn R a) (r : s.ReachableBy F good) : s.Aimed R := by
  obtain ⟨main, builtins, config, vm, as, start, along, e⟩ := r
  have new : vm.start.Base ∧ vm.start.Aimed R := by
    unfold Vm.new at start
    cases built : buildCore main.program builtins config with
    | error kind =>
      rw [built] at start
      cases start
    | ok core =>
      rw [built] at start
      cases start
      exact ⟨base_built built rfl, aimed_built built rfl rfl⟩
  exact new.2.acts rule grows own new.1 along e

/-- The interpreter runs for the innermost call, and its loop is at `a`. -/
def Executes (F : FloatOps) (s : Sys) (view : View) (exitDepth : Nat) (a : At) : Prop :=
  ∃ p rest vm chunk n, s.stack = p :: rest ∧ p.doing = .interpreting ∧ p.exitDepth = exitDepth ∧
    s.vm.Resumes F exitDepth vm ∧ vm.view = view ∧
    Status.runFor (step F view vm.core.trace exitDepth) n (start view vm.fresh chunk) = .running a

/-- Wherever the interpreter runs, it is at a spot above its exit depth. -/
theorem Aimed.going (rule : SpotRule R) (h : s.Aimed R) (b : s.Base) {view : View} {exitDepth : Nat}
    {a : At} (e : s.Executes F view exitDepth a) :
    s.vm.core.Plain a.core ∧ a.core.Runs view ∧ a.core.mem.Regions ∧ a.Loaded ∧
      a.core.x.prnum = a.loc.prnum ∧ a.Aimed R exitDepth := by
  obtain ⟨p, rest, vm, chunk, n, here, doing, rfl, resumes, rfl, at'⟩ := e
  obtain ⟨saved, entry⟩ : ∃ saved, p.restore = .entry saved := by
    cases restore : p.restore with
    | entry saved => exact ⟨saved, rfl⟩
    | prnum n =>
      have direct := b.direct p (here ▸ List.mem_cons_self) n restore
      rw [doing] at direct
      cases direct
  obtain ⟨moved, aimed⟩ := resumes.aimed rule (h.vm b here entry)
  obtain ⟨runs, regions, spotted, atop⟩ := aimed.fresh
  have going := @going_runFor R rule F vm.view vm.core.trace p.exitDepth vm.fresh _ runs regions
    spotted atop chunk n
  rw [at'] at going
  have going : a.Going R p.exitDepth _ vm.fresh := going
  exact ⟨(moved.trans (vm.moved_fresh.trans going.moved)).plain, runs.plain going.moved.plain,
    going.moved.regions regions, going.loaded, going.here, going.aimed⟩

/-- So its statement is a spot. -/
theorem Aimed.executes (rule : SpotRule R) (h : s.Aimed R) (b : s.Base) {view : View} {exitDepth : Nat}
    {a : At} (e : s.Executes F view exitDepth a) :
    s.vm.core.Plain a.core ∧ a.core.Runs view ∧ a.Loaded ∧ a.core.x.prnum = a.loc.prnum ∧
      R a.core.progs ⟨a.loc.prnum, a.pc, a.core.x.switchRef⟩ := by
  obtain ⟨plain, runs, -, loaded, here, aimed⟩ := h.going rule b e
  have spot := aimed.x
  refine ⟨plain, runs, loaded, here, ?_⟩
  rw [← here]
  exact spot

end Sys

end Qcvm

import Qcvm.Interp.Warned
import Qcvm.Vm.Resume
import Qcvm.Vm.Wake

/-!
# No warning disappears

A warning is recorded until the next flush hands it to the host, or it is counted and the end of the
top-level call reports the count. Whatever the host and its builtins do, the warnings handed over and
the counts reported add up to the warnings raised, as long as none is left out while no top-level call
runs: the next one forgets the count of those.
-/

namespace Qcvm

open Lib

namespace Core

variable {core core' : Core}

/-! ## Arguments and results -/

/-- Reading an argument raises no warning. -/
lemma tally_argWords (core : Core) (arg : Arg) : (core.argWords arg).2.tally = core.tally := by
  cases arg with
  | bytes text =>
    unfold argWords
    dsimp only
    split
    next => rfl
    next => rfl
  | _ => rfl

/-- Writing arguments raises no warning. -/
lemma tally_writeArgsFrom (off : Nat) (args : List Arg) (core : Core) :
    (writeArgsFrom off args core).2.tally = core.tally := by
  induction args generalizing off core with
  | nil => rfl
  | cons arg args ih =>
    have first := tally_argWords core arg
    unfold writeArgsFrom
    split
    next kind after e =>
      rw [e] at first
      exact first
    next words after e =>
      rw [e] at first
      exact (ih _ _).trans first

/-- Writing arguments raises nothing. -/
lemma tally_writeArgs (core : Core) (pr : Nat) (args : List Arg) :
    (core.writeArgs pr args).2.tally = core.tally := by
  unfold writeArgs
  split
  next => rfl
  next => exact tally_writeArgsFrom _ _ _

/-- Setting a field of the state machine raises some warnings. -/
lemma warns_setStateField (core : Core) (e : Word) (field : Option Nat) (v : Word) :
    Warns core (core.setStateField e field v) := by
  unfold setStateField
  split
  next => exact .silent rfl
  next => exact .refl core

/-- Setting a global of the state machine raises some warnings. -/
lemma warns_setStateGlobal (core : Core) (off : Option Nat) (v : Word) :
    Warns core (core.setStateGlobal off v) := by
  unfold setStateGlobal
  split
  next => exact .silent rfl
  next => exact .refl core

/-- A cycle of the state machine raises some warnings. -/
lemma warns_cycleState (core : Core) (F : FloatOps) (h : StateHandles) (this wake first last : Word)
    (func : FuncRef) (frameF : Option Nat) :
    Warns core (core.cycleState F h this wake first last func frameF) := by
  have start := ((warns_setStateField core this h.nextthinkF wake).trans
    (warns_setStateField _ this h.thinkF func.bits)).trans
    (warns_setStateGlobal _ h.cycleWrappedG 0)
  unfold cycleState
  dsimp only
  split
  next => exact start
  next =>
    split
    next => exact start.trans ((warns_setStateGlobal _ _ _).trans (.silent rfl))
    next => exact start.trans (.silent rfl)

/-- The state operations of the VM raise some warnings. -/
lemma warns_defaultStateOp (core : Core) (F : FloatOps) (op : StateOp) :
    Warns core (core.defaultStateOp F op) := by
  unfold defaultStateOp
  split
  next => exact .refl core
  next =>
    dsimp only
    split
    next =>
      split
      next =>
        exact ((warns_setStateField _ _ _ _).trans (warns_setStateField _ _ _ _)).trans
          (warns_setStateField _ _ _ _)
      next => exact warns_cycleState _ _ _ _ _ _ _ _ _
      next => exact warns_cycleState _ _ _ _ _ _ _ _ _
      next => exact warns_setStateField _ _ _ _
    next => exact warns_warn _ _

/-! ## Threads -/

/-- Entering the functions of a thread raises some warnings. -/
lemma warns_enterChain (chain : List Activation) (resumePc : Nat) (core : Core) :
    Warns core (enterChain chain resumePc core).2 := by
  induction chain generalizing resumePc core with
  | nil => exact .silent rfl
  | cons a chain ih =>
    have first := warns_enter core a.prnum a.func resumePc
    unfold enterChain
    split
    next kind entered e =>
      rw [e] at first
      exact first
    next entered e =>
      rw [e] at first
      have registers (x : Exec) : Warns entered { entered with x := x } := .silent rfl
      exact first.trans ((registers _).trans (ih _ _))

/-- Resuming a thread raises some warnings. -/
lemma warns_resumeThread (core : Core) (thread : Thread) :
    Warns core (core.resumeThread thread).2 := by
  have chain := warns_enterChain thread.chain core.x.pc core
  unfold resumeThread
  dsimp only
  split
  next kind entered e =>
    rw [e] at chain
    exact chain.trans (warns_unwind _ _)
  next entered e =>
    rw [e] at chain
    exact chain.trans (.silent rfl)

/-! ## Host operations -/

/-- Replacing the memory raises no warning. -/
lemma warns_withMem (m : Memory) (core : Core) : Warns core { core with mem := m } := .silent rfl

/-- The spawn defaults raise no warning. -/
lemma warns_applySpawnDefaults (core : Core) (e : Nat) : Warns core (core.applySpawnDefaults e) :=
  .silent rfl

/-- An operation of the host raises warnings as `Core::warn` does. -/
theorem warns_host (F : FloatOps) (builtins : Builtins) (core : Core) (op : HostOp) :
    Warns core (core.host F builtins op) := by
  cases op with
  | warn msg => exact warns_warn core _
  | rand => exact warns_rng core _
  | remove e now instant =>
    unfold host
    dsimp only
    split
    next => exact .silent rfl
    next => exact warns_warn core _
  | spawn now =>
    unfold host
    dsimp only
    split
    next m _ => exact (warns_withMem m core).trans (warns_applySpawnDefaults _ _)
    next => exact .refl core
  | claim e =>
    unfold host
    dsimp only
    split
    next m _ => exact (warns_withMem m core).trans (warns_applySpawnDefaults _ _)
    next => exact .refl core
  | setField e word v =>
    unfold host
    dsimp only
    split
    next => exact .silent rfl
    next => exact .refl core
  | writeMem p bytes =>
    unfold host
    dsimp only
    split
    next => exact .silent rfl
    next => exact .refl core
  | writeTemp slot start bytes =>
    unfold host writeTemp
    dsimp only
    split
    next => exact .refl core
    next => exact .silent rfl
  | ensureField name ty words =>
    unfold host ensureField
    dsimp only
    split
    next =>
      split
      next =>
        split
        next => exact .refl core
        next => exact .silent rfl
      next => exact .refl core
    next => exact .refl core
  | suspend delay resume =>
    unfold host
    dsimp only
    rcases core.suspend_snd F delay resume with same | ⟨thread, -, -, -, next⟩
    · rw [same]
      exact .refl core
    · rw [next]
      exact .silent rfl
  | collectGarbage =>
    unfold host
    dsimp only
    split
    next => exact .refl core
    next => exact .silent rfl
  | addProgs loaded reserved =>
    obtain ⟨mem, fields, progs, shared, e, -⟩ :=
      core.addProgs_eq F loaded.program builtins reserved
    unfold host
    dsimp only
    rw [e]
    exact .silent rfl
  -- The other operations do not touch the warnings.
  | _ => exact .silent rfl

end Core

namespace Vm

variable {F : FloatOps} {exitDepth : Nat}

/-- A run of the interpreter raises some warnings. -/
lemma warns_interpret (vm : Vm) (chunk : Nat) :
    vm.core.Warns (vm.interpret F exitDepth chunk).core := by
  have upheld := Core.upheld_warns F vm.core
  unfold interpret
  split
  next => exact upheld.run (.refl vm.core) chunk
  next =>
    have cleared : vm.core.Warns { vm.core with traced := false } := .silent rfl
    dsimp only
    split
    next => exact upheld.run cleared chunk
    next => exact upheld.run cleared chunk

/-- A chunk of the budget raises some warnings. -/
lemma warns_runChunk (vm : Vm) (chunk : Nat) :
    vm.core.Warns (vm.runChunk F exitDepth chunk).2.core := by
  have ran : vm.core.Warns (vm.interpret F exitDepth chunk).core := vm.warns_interpret chunk
  unfold runChunk
  dsimp only
  split
  next =>
    split
    next => exact ran
    next => exact ran
  next => exact ran

/-- A sequence of chunks raises some warnings. -/
lemma warns_runChunks (expires : Bool) (sizes : List Nat) (vm : Vm) :
    vm.core.Warns (runChunks F exitDepth expires sizes vm).2.core := by
  induction sizes generalizing vm with
  | nil => exact vm.warns_runChunk vm.budget
  | cons size sizes ih =>
    have first : vm.core.Warns (vm.runChunk F exitDepth (min vm.budget size)).2.core :=
      vm.warns_runChunk _
    unfold runChunks
    split
    next next e =>
      rw [e] at first
      split
      next => exact first
      next => exact first.trans (ih next)
    next => exact first

end Vm

/-! ## What the host is told -/

/-- The warnings that events hand to the host. -/
def toldBy (events : List Event) : List Warning :=
  events.filterMap fun
    | .warning w => some w
    | .trace _ _ _ | .returned _ | .ranThreads _ => none

/-- The warning that so many were left out. -/
def notice (suppressed : Nat) : Warning := ⟨.suppressed suppressed, []⟩

/-- The counts the end of a top-level call reports. -/
def reports (suppressed : Nat) : List Nat := if suppressed > 0 then [suppressed] else []

/-- The reported counts add up to what was left out. -/
lemma sum_reports (n : Nat) : (reports n).sum = n := by
  unfold reports
  split
  next => exact List.sum_singleton
  next none => exact (Nat.eq_zero_of_not_pos none).symm

/-- The warnings raised are those `recorded` and those `omitted`: the first are in the log, once each,
and of the others the log has the numbers, but for `pending` that are left. -/
def Tally.Accounts (a : Tally) (pending : Nat) : Prop :=
  ∃ (recorded omitted : List Warning) (reported : List Nat),
    a.raised.Perm (recorded ++ omitted) ∧ a.log.Perm (recorded ++ reported.map notice) ∧
      omitted.length = reported.sum + pending

namespace Tally

variable {a b : Tally} {ws left : List Warning} {pending : Nat}

/-- Warnings that are raised go to the log or are left. -/
lemma Accounts.raise (h : a.Accounts pending) (r : Raised ws left a b) :
    b.Accounts (pending + left.length) := by
  obtain ⟨recorded, omitted, reported, raised, perm, total⟩ := h
  obtain ⟨all, more, split⟩ := r.raised
  refine ⟨recorded ++ ws, omitted ++ left, reported, ?_, ?_, ?_⟩
  · rw [more]
    refine (raised.append split).trans ?_
    rw [List.append_assoc, List.append_assoc, ← List.append_assoc omitted, ← List.append_assoc ws]
    exact (List.perm_append_comm.append_right left).append_left recorded
  · rw [r.log, List.append_assoc]
    refine (perm.append_right ws).trans ?_
    rw [List.append_assoc]
    exact List.perm_append_comm.append_left recorded
  · rw [List.length_append, total]
    omega

/-- Those that are left can be reported. -/
lemma Accounts.report (h : a.Accounts pending) (raised : b.raised = a.raised)
    (log : b.log = a.log ++ (reports pending).map notice) : b.Accounts 0 := by
  obtain ⟨recorded, omitted, reported, all, perm, total⟩ := h
  refine ⟨recorded, omitted, reported ++ reports pending, raised ▸ all, ?_, ?_⟩
  · rw [log, List.map_append, ← List.append_assoc]
    exact perm.append_right _
  · rw [List.sum_append_nat, sum_reports, total]
    omega

/-- The counters of the current call do not matter. -/
lemma Accounts.congr (h : a.Accounts pending) (raised : b.raised = a.raised) (log : b.log = a.log) :
    b.Accounts pending := by
  obtain ⟨recorded, omitted, reported, all, perm, total⟩ := h
  exact ⟨recorded, omitted, reported, raised ▸ all, log ▸ perm, total⟩

/-- Both counters go up together, the one of all warnings faster. -/
lemma Raised.counts (r : Raised ws left a b) (le : a.suppressed ≤ a.count)
    (bounded : b.count < u32Max) :
    b.count = a.count + (ws.length + left.length) ∧ b.suppressed = a.suppressed + left.length := by
  have count : b.count = a.count + (ws.length + left.length) := by
    rw [r.count] at bounded ⊢
    exact iterate_countUp bounded
  have exact' (j : Nat) (few : j ≤ left.length) : countUp^[j] a.suppressed = a.suppressed + j := by
    induction j with
    | zero => rfl
    | succ j ih =>
      rw [Function.iterate_succ_apply', ih (by omega)]
      unfold countUp saturatingAdd
      omega
  rw [r.suppressed]
  exact ⟨count, exact' left.length (Nat.le_refl _)⟩

end Tally

/-- Events in sequence hand over the warnings of each. -/
lemma toldBy_append (events events' : List Event) :
    toldBy (events ++ events') = toldBy events ++ toldBy events' :=
  List.filterMap_append

/-- The events of warnings hand over these warnings. -/
lemma toldBy_warnings (ws : List Warning) : toldBy (ws.map .warning) = ws := by
  unfold toldBy
  rw [List.filterMap_map]
  exact List.filterMap_some

/-- The outermost of the calls that have not returned is one of the host's. -/
def calling (stack : List Pending) : Bool :=
  stack.getLast?.any fun p =>
    match p.origin with
    | .call _ _ _ _ => true
    | .threads _ _ => false

namespace Sys

/-- The warnings `Host::warning` was called with. -/
def told (s : Sys) : List Warning := toldBy s.events

/-- The warnings so far: those that were handed over, and those that wait. -/
def tally (s : Sys) : Tally := { s.vm.core.tally with log := s.told ++ s.vm.core.warnings }

/-- Some warnings were raised. -/
def Warns (s t : Sys) : Prop := s.tally.Leads t.tally

/-- The action starts a top-level call, which restarts the counts. -/
def restarts (s : Sys) : Action → Bool
  | .call _ _ => s.vm.core.nesting == 0 && s.vm.core.nesting < s.vm.core.config.limits.reentry
  | _ => false

/-- The system with its counts restarted. -/
def anew (s : Sys) : Sys := s.mapCore fun core => { core with warningsThisCall := 0, suppressed := 0 }

/-- A top-level call returns: the host has every warning, and the count of those left out. -/
structure Reports (s t : Sys) : Prop where
  tally : t.tally = { s.tally with log := s.tally.log ++ (reports s.vm.core.suppressed).map notice }
  warnings : t.vm.core.warnings = []
  stack : t.stack = []

variable {F : FloatOps} {s t u : Sys} {p : Pending} {rest : List Pending}

/-- A system with the same tally has raised no warning. -/
lemma Warns.silent (e : t.tally = s.tally) : s.Warns t := .of_eq e

/-- A system that does nothing has raised no warning. -/
lemma Warns.refl (s : Sys) : s.Warns s := .silent rfl

/-- Raising some warnings and then some more is raising some warnings. -/
lemma Warns.trans (a : s.Warns t) (b : t.Warns u) : s.Warns u := Tally.Leads.trans a b

/-- What the core raises, the system raises. -/
lemma Warns.of_core {vm : Vm} (stack : List Pending) (h : s.vm.core.Warns vm.core) :
    s.Warns { s with vm := vm, stack := stack } :=
  h.prepend s.told

/-- An event that is no warning tells the host of none. -/
lemma tally_emit (s : Sys) {e : Event} (none : toldBy [e] = []) : (s.emit e).tally = s.tally := by
  have told : (s.emit e).told = s.told := by
    show toldBy (s.events ++ [e]) = _
    rw [toldBy_append, none, List.append_nil]
    rfl
  unfold tally
  rw [told]
  rfl

/-- An event that hands over nothing raises no warning. -/
lemma warns_emit (s : Sys) {e : Event} (none : toldBy [e] = []) : s.Warns (s.emit e) :=
  .silent (s.tally_emit none)

/-- Handing the warnings over loses none. -/
lemma tally_flush (s : Sys) : s.flush.tally = s.tally := by
  have told : s.flush.told = s.told ++ s.vm.core.warnings := by
    show toldBy (s.events ++ s.vm.core.warnings.map .warning) = _
    rw [toldBy_append, toldBy_warnings]
    rfl
  unfold tally
  rw [told]
  show Tally.mk _ _ (s.told ++ s.vm.core.warnings ++ []) _ _ = _
  rw [List.append_nil]
  rfl

/-- Flushing the warnings raises none. -/
lemma warns_flush (s : Sys) : s.Warns s.flush := .silent s.tally_flush

/-- A collection keeps the tally. -/
lemma tally_collect (s : Sys) : s.collect.tally = s.tally := by
  unfold collect
  split
  next => rfl
  next => rfl

/-- The bookkeeping of a call raises warnings as `Core::warn` does. -/
lemma steady_warns (F : FloatOps) : Steady F Warns where
  refl := .refl
  trans := .trans
  restack _ _ := .silent rfl
  flush := warns_flush
  trace s _ _ _ := s.warns_emit rfl
  restore s r := by
    unfold restore
    split
    next => exact .silent rfl
    next => exact .silent rfl
  builtin _ _ := .silent rfl
  aborts _ _ := .silent rfl
  unwind s depth := .of_core s.stack (s.vm.core.warns_unwind depth)
  warn s kind := .of_core s.stack (s.vm.core.warns_warn kind)
  ret _ _ := .silent rfl
  state s op := .of_core s.stack (s.vm.core.warns_defaultStateOp F op)
  run s _ expires sizes _ := .of_core s.stack (s.vm.warns_runChunks expires sizes)

/-! ## Calls that begin and end -/

/-- The stack marks the outermost call, and no other, as a top-level one. -/
def Marked : List Pending → Prop
  | [] => True
  | p :: rest =>
    (∀ argc builtin topLevel pr, p.origin = .call argc builtin topLevel pr → topLevel = rest.isEmpty) ∧
      Marked rest

/-- What an action of the innermost call, or one that begins a call, comes to: no top-level call
returns, or one does. -/
inductive Outcome (s : Sys) (stack : List Pending) (t : Sys) : Prop where
  | goesOn : s.Warns t → calling t.stack = calling stack → Marked t.stack → Outcome s stack t
  | returns {u : Sys} : calling stack = true → s.Warns u → u.Reports t → Outcome s stack t

/-- A call that returns leaves nothing to mark. -/
lemma Outcome.marked {stack : List Pending} (h : s.Outcome stack t) : Marked t.stack := by
  cases h with
  | goesOn _ _ marked => exact marked
  | returns _ _ reports =>
    rw [reports.stack]
    trivial

/-- What an action comes to depends on the outermost call of the stack alone. -/
lemma Outcome.congr {stack stack' : List Pending} (h : s.Outcome stack t)
    (e : calling stack = calling stack') : s.Outcome stack' t := by
  cases h with
  | goesOn warns stack marked => exact .goesOn warns (stack.trans e) marked
  | returns calls warns reports => exact .returns (e.symm.trans calls) warns reports

/-- The marks of a stack depend on the origins of its calls alone. -/
lemma Marked.origin {q : Pending} (h : Marked (p :: rest)) (e : q.origin = p.origin) :
    Marked (q :: rest) :=
  ⟨fun _ _ _ _ here => h.1 _ _ _ _ (e.symm.trans here), h.2⟩

/-- A nested call does not change the outermost one. -/
lemma calling_cons (p : Pending) (some : rest ≠ []) : calling (p :: rest) = calling rest := by
  obtain ⟨q, rest, rfl⟩ := List.exists_cons_of_ne_nil some
  rfl

/-- Which call is the outermost depends on the origins alone. -/
lemma calling_origin {q : Pending} (e : q.origin = p.origin) :
    calling (q :: rest) = calling (p :: rest) := by
  cases rest with
  | nil =>
    show Option.any _ (some q) = Option.any _ (some p)
    rw [Option.any_some, Option.any_some, e]
  | cons => rfl

/-- A lone host call is the outermost. -/
lemma calling_call {argc : Nat} {builtin : FuncRef} {topLevel : Bool} {pr : Nat}
    (e : p.origin = .call argc builtin topLevel pr) : calling [p] = true := by
  show Option.any _ (some p) = true
  rw [Option.any_some, e]

/-- A lone run of threads is no host call. -/
lemma calling_threads {queue : List Thread} {ran : Nat} (e : p.origin = .threads queue ran) :
    calling [p] = false := by
  show Option.any _ (some p) = false
  rw [Option.any_some, e]

/-- The end of a top-level call hands over what waits, and the count. -/
lemma reports_endTopLevel (s : Sys) (idle : s.stack = []) : s.Reports s.endTopLevel := by
  obtain ⟨noted, e, tally, stack⟩ : ∃ u : Sys, u = (if s.vm.core.suppressed > 0 then
      s.mapCore fun core =>
        { core with warnings := core.warnings ++ [⟨.suppressed core.suppressed, []⟩] }
      else s) ∧ u.tally = { s.tally with log := s.tally.log ++ (reports s.vm.core.suppressed).map notice } ∧
        u.stack = s.stack := by
    refine ⟨_, rfl, ?_⟩
    unfold reports
    split
    next => exact ⟨congrArg (Tally.mk _ _ · _ _) (List.append_assoc _ _ _).symm, rfl⟩
    next => exact ⟨congrArg (Tally.mk _ _ · _ _) (List.append_nil _).symm, rfl⟩
  have warnings : noted.flush.collect.vm.core.warnings = [] := by
    unfold collect
    split
    next => rfl
    next => rfl
  unfold endTopLevel
  dsimp only
  rw [← e]
  refine ⟨?_, warnings, ?_⟩
  · rw [tally_collect, tally_flush, tally]
  · exact calm_collect.stack.trans (stack.trans idle)

/-- A thread fails: the warnings are handed over, and the threads in hand go back to sleep. -/
lemma warns_requeue (s : Sys) (queue : List Thread) (r : Except VmError Nat) :
    s.Warns ((s.flush.mapCore fun core => { core with threads := core.threads ++ queue }).emit
      (.ranThreads r)) :=
  s.warns_flush.trans (Warns.trans (.silent rfl) (warns_emit _ rfl))

/-- At the head of its loop `run_threads` waits for a thread, or returns. -/
lemma goesOn_nextThread (s : Sys) (idle : s.stack = []) (queue : List Thread) (ran : Nat) :
    s.Warns (s.nextThread queue ran) ∧ calling (s.nextThread queue ran).stack = false ∧
      Marked (s.nextThread queue ran).stack := by
  cases queue with
  | nil =>
    have stack : s.collect.stack = [] := calm_collect.stack.trans idle
    refine ⟨(Warns.silent s.tally_collect).trans (warns_emit _ rfl), ?_⟩
    show calling s.collect.stack = false ∧ Marked s.collect.stack
    rw [stack]
    exact ⟨rfl, trivial⟩
  | cons thread rest =>
    let core := { s.vm.startBudgets.core with nesting := s.vm.startBudgets.core.nesting + 1 }
    have resumed : s.vm.core.Warns (core.resumeThread thread).2 :=
      Core.Warns.trans (.silent rfl) (core.warns_resumeThread thread)
    unfold nextThread
    dsimp only
    split
    next kind failed e =>
      rw [e] at resumed
      have left : s.vm.core.Warns { failed with nesting := failed.nesting - 1 } :=
        resumed.trans (.silent rfl)
      refine ⟨.trans ?_ (warns_requeue _ rest _), ?_⟩
      · exact .of_core s.stack left
      · show calling s.stack = false ∧ Marked s.stack
        rw [idle]
        exact ⟨rfl, trivial⟩
    next entered e =>
      rw [e] at resumed
      refine ⟨.of_core _ (resumed.trans (.silent rfl)), ?_⟩
      rw [idle]
      exact ⟨rfl, nofun, trivial⟩

/-- The end of a thread hands its warnings over, whatever follows. -/
lemma goesOn_endThread (s : Sys) (idle : s.stack = []) (queue : List Thread) (ran : Nat)
    (r : Except VmError Unit) :
    s.Warns (s.endThread queue ran r) ∧ calling (s.endThread queue ran r).stack = false ∧
      Marked (s.endThread queue ran r).stack := by
  let v := s.mapCore fun core => { core with abortRet := none, nesting := core.nesting - 1 }
  have closed : s.Warns v := .silent rfl
  cases r with
  | error e =>
    refine ⟨closed.trans (v.warns_requeue queue _), ?_⟩
    show calling s.stack = false ∧ Marked s.stack
    rw [idle]
    exact ⟨rfl, trivial⟩
  | ok _ =>
    have next := v.flush.goesOn_nextThread idle queue (ran + 1)
    exact ⟨closed.trans (v.warns_flush.trans next.1), next.2⟩

/-- A call that ends reports if it is the outermost. -/
lemma outcome_endCall (s : Sys) (argc : Nat) (builtin : FuncRef) (topLevel : Bool) (retPr : Nat)
    (e : p.origin = .call argc builtin topLevel retPr) (marked : Marked (p :: s.stack))
    (r : Except VmError Unit) :
    s.Outcome (p :: s.stack) (s.endCall argc builtin topLevel retPr r) := by
  unfold endCall
  dsimp only
  generalize s.vm.core.abortRet.getD (s.vm.core.readReturn retPr) = ret
  have outermost : topLevel = s.stack.isEmpty := marked.1 _ _ _ _ e
  let v := s.mapCore fun core =>
    { core with nesting := core.nesting - 1, argc := argc, builtin := builtin, abortRet := none }
  have closed : s.Warns v := .silent rfl
  split
  next top =>
    have idle : s.stack = [] := List.isEmpty_iff.mp (outermost.symm.trans top)
    have calls : calling (p :: s.stack) = true := by
      rw [idle]
      exact calling_call e
    have reports := v.reports_endTopLevel idle
    refine .returns calls closed ⟨?_, reports.warnings, reports.stack⟩
    exact (tally_emit _ rfl).trans reports.tally
  next nested =>
    have inner : s.stack ≠ [] := by
      intro idle
      rw [idle] at outermost
      exact nested outermost
    exact .goesOn (closed.trans (v.warns_emit rfl)) (calling_cons p inner).symm marked.2

/-- An innermost call goes on, or ends as its mark says. -/
lemma outcome_continuesBy (b : ∀ queue ran, p.origin = .threads queue ran → rest = [])
    (marked : Marked (p :: rest)) (c : ContinuesBy Warns s p rest t) : s.Outcome (p :: rest) t := by
  rcases c with ⟨warns, q, origin, stack⟩ | ⟨u, r, warns, stack, rfl⟩
  · refine .goesOn warns ?_ ?_
    · rw [stack]
      exact calling_origin origin
    · rw [stack]
      exact marked.origin origin
  · cases origin : p.origin with
    | call argc builtin topLevel retPr =>
      subst stack
      have ends := outcome_endCall u argc builtin topLevel retPr origin marked r
      cases ends with
      | goesOn after stack marked => exact .goesOn (warns.trans after) stack marked
      | returns calls after reports => exact .returns calls (warns.trans after) reports
    | threads queue ran =>
      have last := b queue ran origin
      have ends := u.goesOn_endThread (stack.trans last) queue ran r
      refine .goesOn (warns.trans ends.1) (ends.2.1.trans ?_) ends.2.2
      rw [last]
      exact (calling_threads origin).symm

/-- So does a call that begins. -/
lemma continuesBy_dispatch (F : FloatOps) (s : Sys) (f : FuncRef) (callee : Option Callee)
    (origin : Origin) :
    ∃ p : Pending, p.origin = origin ∧ ContinuesBy Warns s p s.stack (s.dispatch f callee origin) := by
  have steady := steady_warns F
  have ended (t : Sys) (warns : s.Warns t) (stack : t.stack = s.stack) (r : Except VmError Unit) :
      ∃ p : Pending, p.origin = origin ∧ ContinuesBy Warns s p s.stack (t.deliver origin r) :=
    ⟨⟨0, .interpreting, .entry 0, origin⟩, rfl, .inr ⟨t, r, warns, stack, rfl⟩⟩
  have entering := s.vm.core.warns_enter f.progs f.index s.vm.core.x.pc
  unfold dispatch
  dsimp only
  split
  next =>
    split
    next entered e =>
      rw [e] at entering
      let p : Pending := ⟨s.vm.core.frames.length, .interpreting, .entry s.vm.core.entryDepth, origin⟩
      refine ⟨p, rfl, .inl ⟨?_, p, rfl, rfl⟩⟩
      exact .of_core _ (entering.trans (.silent rfl))
    next kind entered e =>
      rw [e] at entering
      have entered : s.Warns (s.mapCore fun _ => entered) := .of_core s.stack entering
      exact ended _ entered rfl _
  next slot =>
    let p : Pending := ⟨s.vm.core.frames.length, .interpreting, .prnum s.vm.core.x.prnum, origin⟩
    let v := s.mapCore fun core => { core with x := { core.x with prnum := f.progs } }
    have placed : s.Warns v := .silent rfl
    exact ⟨p, rfl, steady.before placed (steady.enterBuiltin v p slot f)⟩
  next => exact ended s (.refl s) rfl _
  next => exact ended s (.refl s) rfl _
  next => exact ended s (.refl s) rfl _
  next => exact ended s (.refl s) rfl _

/-- The arguments of a call can be written. -/
def accepts (s : Sys) (f : FuncRef) (args : List Arg) : Bool :=
  let pr := if s.vm.core.callee f = some .qc then s.vm.core.x.prnum else f.progs
  (s.vm.core.writeArgs pr args).1.isOk

/-- Once the counts are restarted, a call writes its arguments, which may fail, and begins. -/
lemma continuesBy_written (F : FloatOps) (s : Sys) (f : FuncRef) (callee : Option Callee) (pr : Nat)
    (args : List Arg) (origin : Origin) {t : Sys}
    (e : t = match s.vm.core.writeArgs pr args with
      | (.error kind, written) =>
        { s with vm := { s.vm with core := written } }.emit (.returned (.error (.new kind)))
      | (.ok (), written) =>
        let written := { written with argc := args.length, nesting := written.nesting + 1 }
        { s with vm := { s.vm with core := written } }.dispatch f callee origin) :
    ((s.vm.core.writeArgs pr args).1.isOk = false ∧ t.tally = s.tally ∧ t.stack = s.stack) ∨
      ∃ p : Pending, p.origin = origin ∧ ContinuesBy Warns s p s.stack t := by
  have wrote := s.vm.core.tally_writeArgs pr args
  subst e
  split
  next kind written e =>
    rw [e] at wrote
    have same : Sys.tally { s with vm := { s.vm with core := written } } = s.tally :=
      congrArg (fun c : Tally => { c with log := s.told ++ c.log }) wrote
    exact .inl ⟨congrArg (fun r => r.1.isOk) e, (tally_emit _ rfl).trans same, rfl⟩
  next written e =>
    rw [e] at wrote
    let u : Sys :=
      { s with vm := { s.vm with core :=
        { written with argc := args.length, nesting := written.nesting + 1 } } }
    have same : u.tally = s.tally := congrArg (fun c : Tally => { c with log := s.told ++ c.log }) wrote
    obtain ⟨p, made, continues⟩ := u.continuesBy_dispatch F f callee origin
    exact .inr ⟨p, made, (steady_warns F).before (.silent same) continues⟩

/-- What an action does to the warnings. -/
inductive Tells (s : Sys) (a : Action) (t : Sys) : Prop where
  | during : s.restarts a = false → s.Outcome s.stack t → Tells s a t
  /-- A top-level call begins. -/
  | starts {p : Pending} : s.restarts a = true → s.stack = [] → calling [p] = true →
    s.anew.Outcome [p] t → Tells s a t
  /-- A top-level call is refused for its arguments. -/
  | refused {f : FuncRef} {args : List Arg} : a = .call f args → s.anew.accepts f args = false →
    s.restarts a = true → s.stack = [] → t.tally = s.anew.tally → t.stack = [] → Tells s a t

/-- A call tells the warnings as `Tells` says. -/
lemma tells_call (F : FloatOps) (b : s.Base) (marked : Marked s.stack) (f : FuncRef)
    (args : List Arg) : s.Tells (.call f args) (s.call f args) := by
  by_cases room : s.vm.core.nesting ≥ s.vm.core.config.limits.reentry
  · refine .during ?_ ?_
    · have full : decide (s.vm.core.nesting < s.vm.core.config.limits.reentry) = false :=
        decide_eq_false (Nat.not_lt.mpr room)
      show (_ && _) = false
      rw [full, Bool.and_false]
    · unfold call
      dsimp only
      rw [if_pos room]
      exact .goesOn (s.warns_emit rfl) rfl marked
  · have few : decide (s.vm.core.nesting < s.vm.core.config.limits.reentry) = true :=
      decide_eq_true (Nat.not_le.mp room)
    have restarts : s.restarts (.call f args) = (s.vm.core.nesting == 0) := by
      show (_ && _) = _
      rw [few, Bool.and_true]
    unfold call
    dsimp only
    rw [if_neg room]
    cases idle : s.vm.core.nesting == 0 with
    | true =>
      have none : s.stack = [] := by
        rw [← List.length_eq_zero_iff, ← b.nesting]
        exact eq_of_beq idle
      rw [idle] at restarts
      let v : Sys := { s with vm := s.anew.vm.startBudgets }
      have same : s.anew.Warns v := .silent rfl
      rcases continuesBy_written F v f _ _ args _ rfl with
        ⟨refused, tally, stack⟩ | ⟨p, origin, continues⟩
      · exact .refused rfl refused restarts none tally (stack.trans none)
      · refine .starts restarts none (calling_call origin) ?_
        have outermost : calling (p :: s.stack) = calling [p] := by rw [none]
        refine .congr (outcome_continuesBy (fun _ _ _ => none) ⟨fun _ _ _ _ e => ?_, marked⟩
          ((steady_warns F).before same continues)) outermost
        cases origin.symm.trans e
        exact (List.isEmpty_iff.mpr none).symm
    | false =>
      have some : s.stack ≠ [] := by
        intro none
        rw [b.nesting, none] at idle
        cases idle
      rw [idle] at restarts
      refine .during restarts ?_
      rcases continuesBy_written F s f _ _ args _ rfl with
        ⟨-, tally, stack⟩ | ⟨p, origin, continues⟩
      · exact .goesOn (.silent tally) (congrArg calling stack) ((congrArg Marked stack).mpr marked)
      · refine .congr (outcome_continuesBy (fun queue ran e => ?_) ⟨fun _ _ _ _ e => ?_, marked⟩
          continues) (calling_cons p some)
        · cases origin.symm.trans e
        · cases origin.symm.trans e
          exact (List.isEmpty_eq_false_iff.mpr some).symm

/-- Every action but a reset. -/
theorem tells_act {a : Action} (b : s.Base) (marked : Marked s.stack) (kept : a ≠ .reset)
    (e : s.actIdleReset F a = some t) : s.Tells a t := by
  by_cases inner : a.Inner
  · obtain ⟨p, rest, here, continues⟩ := (steady_warns F).act inner b e
    have still : s.restarts a = false := by
      cases a with
      | host | call | runThreads | reset => exact inner.elim
      | run | finish | stateDone => rfl
    rw [here] at marked
    refine .during still ?_
    rw [here]
    refine outcome_continuesBy (fun queue ran origin => ?_) marked continues
    by_contra more
    refine b.outermost p ?_ queue ran origin
    rw [here, List.dropLast_cons_of_ne_nil more]
    exact List.mem_cons_self
  rw [actIdleReset_eq_some] at e
  obtain ⟨e, -⟩ := e
  unfold act at e
  split at e
  next op =>
    split at e
    next =>
      cases e
      refine .during rfl (.goesOn (.of_core s.stack ?_) rfl marked)
      rw [Vm.core_host]
      exact s.vm.core.warns_host F s.vm.builtins op
    next => cases e
  next f args =>
    split at e
    next =>
      cases e
      exact tells_call F b marked f args
    next => cases e
  next =>
    split at e
    next =>
      cases e
      refine .during rfl ?_
      unfold runThreads
      split
      next => exact .goesOn (s.warns_emit rfl) rfl marked
      next outermost =>
        have idle : s.stack = [] := by
          rw [← List.length_eq_zero_iff, ← b.nesting]
          omega
        have taken : s.Warns (s.mapCore fun core => (core.takeDue F).2) := .silent rfl
        have next := goesOn_nextThread (s.mapCore fun core => (core.takeDue F).2) idle
          (s.vm.core.takeDue F).1 0
        refine .goesOn (taken.trans next.1) (next.2.1.trans ?_) next.2.2
        rw [idle]
        rfl
    next => cases e
  next => exact absurd rfl kept
  next => exact absurd trivial inner
  next => exact absurd trivial inner
  next => exact absurd trivial inner
  next => cases e

/-! ## Runs -/

/-- The warnings that were left out in the top-level call that runs, and not reported yet. -/
def pending (s : Sys) : Nat := if calling s.stack then s.vm.core.suppressed else 0

/-- An action raises warnings at the right time: the counts do not stop at their maximum, and more
than may be recorded are raised in a top-level call only. -/
def Paces (s : Sys) (a : Action) (t : Sys) : Prop :=
  t.vm.core.warningsThisCall < u32Max ∧
    (calling s.stack ∨ s.restarts a ∨ t.vm.core.warningsThisCall = s.vm.core.warningsThisCall ∨
      t.vm.core.warningsThisCall ≤ s.vm.core.config.limits.warningsPerCall)

instance (s : Sys) (a : Action) (t : Sys) : Decidable (s.Paces a t) :=
  inferInstanceAs (Decidable (_ ∧ (_ ∨ _ ∨ _ ∨ _)))

/-- Every action of a run does. -/
def Paced (F : FloatOps) : List Action → Sys → Prop
  | [], _ => True
  | a :: as, s =>
    match s.actIdleReset F a with
    | some t => s.Paces a t ∧ Paced F as t
    | none => True

/-- `Paced`, evaluated. -/
def paced (F : FloatOps) : List Action → Sys → Bool
  | [], _ => true
  | a :: as, s =>
    match s.actIdleReset F a with
    | some t => decide (s.Paces a t) && paced F as t
    | none => true

/-- The evaluated pacing is the pacing. -/
lemma paced_iff {as : List Action} : s.paced F as = true ↔ s.Paced F as := by
  induction as generalizing s with
  | nil => exact iff_of_true rfl trivial
  | cons a as ih =>
    unfold paced Paced
    split
    next t _ => rw [Bool.and_eq_true, decide_eq_true_iff, ih]
    next => exact iff_of_true rfl trivial

/-- The action starts a top-level call, and its arguments can be written. -/
def opens (s : Sys) : Action → Bool
  | .call f args => s.restarts (.call f args) && s.anew.accepts f args
  | _ => false

/-- A top-level call that could write its arguments returns. -/
def Completes (s : Sys) (a : Action) (t : Sys) : Prop :=
  t.stack = [] ∧ (calling s.stack ∨ s.opens a)

instance (s : Sys) (a : Action) (t : Sys) : Decidable (s.Completes a t) :=
  match idle : t.stack with
  | [] => decidable_of_iff (calling s.stack ∨ s.opens a) (and_iff_right idle).symm
  | _ :: _ => isFalse fun done => List.cons_ne_nil _ _ (idle.symm.trans done.1)

/-- Of all warnings raised the host was told some, each once, and how many the others were. -/
def Informs (s : Sys) : Prop :=
  ∃ (recorded omitted : List Warning) (reported : List Nat),
    s.vm.core.raised.Perm (recorded ++ omitted) ∧ s.told.Perm (recorded ++ reported.map notice) ∧
      omitted.length = reported.sum

/-- Where the counts stand: of the warnings raised none is lost. -/
structure Counted (s : Sys) : Prop where
  small : s.vm.core.suppressed ≤ s.vm.core.warningsThisCall
  accounts : s.tally.Accounts s.pending

/-- A call that goes on or ends keeps the count. -/
lemma Outcome.counted {stack : List Pending} (h : s.Outcome stack t)
    (small : s.vm.core.suppressed ≤ s.vm.core.warningsThisCall)
    (accounts : s.tally.Accounts (if calling stack then s.vm.core.suppressed else 0))
    (bounded : t.vm.core.warningsThisCall < u32Max)
    (outside : calling stack = false → t.vm.core.warningsThisCall = s.vm.core.warningsThisCall ∨
      t.vm.core.warningsThisCall ≤ s.vm.core.config.limits.warningsPerCall) :
    t.Counted := by
  cases h with
  | goesOn warns stack' marked =>
    obtain ⟨ws, left, r⟩ := warns
    obtain ⟨count, suppressed⟩ := r.counts small bounded
    have count : t.vm.core.warningsThisCall
        = s.vm.core.warningsThisCall + (ws.length + left.length) := count
    have suppressed : t.vm.core.suppressed = s.vm.core.suppressed + left.length := suppressed
    refine ⟨by omega, ?_⟩
    have raised := accounts.raise r
    unfold pending
    rw [stack', suppressed]
    cases calls : calling stack with
    | true =>
      rw [calls] at raised
      exact raised
    | false =>
      -- Outside a top-level call nothing is left out.
      have none : left.length = 0 := by
        by_contra some
        have few : s.vm.core.config.limits.warningsPerCall < min t.vm.core.warningsThisCall u32Max :=
          r.few fun empty => some (congrArg List.length empty)
        have outside := outside calls
        omega
      rw [calls, none] at raised
      exact raised
  | returns calls warns reports =>
    rename_i u
    obtain ⟨ws, left, r⟩ := warns
    have same : t.vm.core.warningsThisCall = u.vm.core.warningsThisCall ∧
        t.vm.core.suppressed = u.vm.core.suppressed :=
      ⟨congrArg Tally.count reports.tally, congrArg Tally.suppressed reports.tally⟩
    rw [same.1] at bounded
    obtain ⟨count, suppressed⟩ := r.counts small bounded
    have count : u.vm.core.warningsThisCall
        = s.vm.core.warningsThisCall + (ws.length + left.length) := count
    have suppressed : u.vm.core.suppressed = s.vm.core.suppressed + left.length := suppressed
    refine ⟨by omega, ?_⟩
    unfold pending
    rw [reports.stack]
    rw [calls] at accounts
    have raised : t.tally.raised = u.tally.raised := by rw [reports.tally]
    refine (accounts.raise r).report raised ?_
    rw [reports.tally, suppressed]
    rfl

/-- So does an action that raises its warnings at the right time. -/
lemma Counted.step {a : Action} (c : s.Counted) (tells : s.Tells a t) (paces : s.Paces a t) :
    t.Counted := by
  obtain ⟨bounded, calls⟩ := paces
  cases tells with
  | during still outcome =>
    rw [still] at calls
    refine outcome.counted c.small c.accounts bounded fun outside => ?_
    rw [outside] at calls
    rcases calls with calls | calls | calls
    · cases calls
    · cases calls
    · exact calls
  | starts restarts idle top outcome =>
    have none : s.pending = 0 := by
      unfold pending
      rw [idle]
      rfl
    have accounts := c.accounts
    rw [none] at accounts
    refine outcome.counted (Nat.le_refl 0) ?_ bounded fun outside => ?_
    · rw [top]
      exact accounts.congr rfl rfl
    · rw [top] at outside
      cases outside
  | refused _ _ restarts idle tally stack =>
    have none : s.pending = 0 := by
      unfold pending
      rw [idle]
      rfl
    have counts : t.vm.core.warningsThisCall = 0 ∧ t.vm.core.suppressed = 0 :=
      ⟨congrArg Tally.count tally, congrArg Tally.suppressed tally⟩
    have accounts := c.accounts
    rw [none] at accounts
    refine ⟨by omega, ?_⟩
    unfold pending
    rw [stack]
    have raised : t.tally.raised = s.anew.tally.raised := congrArg Tally.raised tally
    have log : t.tally.log = s.anew.tally.log := congrArg Tally.log tally
    exact accounts.congr raised log

/-- An action keeps the stack marked. -/
lemma Tells.marked {a : Action} (tells : s.Tells a t) : Marked t.stack := by
  cases tells with
  | during _ outcome => exact outcome.marked
  | starts _ _ _ outcome => exact outcome.marked
  | refused _ _ _ _ _ stack =>
    rw [stack]
    trivial

/-- When a top-level call returns, no warning waits. -/
lemma Tells.warnings {a : Action} (tells : s.Tells a t) (done : s.Completes a t) :
    t.vm.core.warnings = [] := by
  obtain ⟨returned, calls⟩ := done
  have ended {v : Sys} {stack : List Pending} (outcome : v.Outcome stack t)
      (top : calling stack = true) : t.vm.core.warnings = [] := by
    cases outcome with
    | goesOn _ still =>
      rw [returned, top] at still
      cases still
    | returns _ _ reports => exact reports.warnings
  cases tells with
  | during still outcome =>
    rcases calls with inside | opens
    · exact ended outcome inside
    · cases a with
      | call f args =>
        have restarts : s.restarts (.call f args) = true := (Bool.and_eq_true_iff.mp opens).1
        rw [still] at restarts
        cases restarts
      | host | runThreads | run | finish | stateDone | reset => cases opens
  | starts _ _ top outcome => exact ended outcome top
  | refused call refused _ idle =>
    subst call
    rcases calls with inside | opens
    · rw [idle] at inside
      cases inside
    · have accepts := (Bool.and_eq_true_iff.mp opens).2
      rw [refused] at accepts
      cases accepts

/-- A run without a reset keeps the count. -/
theorem counted_acts {as : List Action} (b : s.Base) (marked : Marked s.stack) (c : s.Counted)
    (kept : .reset ∉ as) (paced : s.Paced F as) (e : s.actsIdleReset F as = some t) :
    t.Counted ∧ Marked t.stack := by
  induction as generalizing s with
  | nil =>
    cases e
    exact ⟨c, marked⟩
  | cons a as ih =>
    obtain ⟨u, first, rest⟩ := Option.bind_eq_some_iff.mp e
    unfold Paced at paced
    rw [first] at paced
    obtain ⟨paces, paced⟩ := paced
    have tells := tells_act b marked (List.ne_of_not_mem_cons kept).symm first
    exact ih (b.act first) tells.marked (c.step tells paces) (List.not_mem_of_not_mem_cons kept) paced rest

end Sys

/-- A core that was just built has raised nothing. -/
lemma Core.tally_build {program : Program} {builtins : Builtins} {config : VmConfig} {core : Core}
    (e : buildCore program builtins config = .ok core) :
    core.tally = ⟨config.limits.warningsPerCall, [], [], 0, 0⟩ := by
  unfold buildCore at e
  cases plan : planSpace program config with
  | error kind =>
    rw [plan] at e
    cases e
  | ok sp =>
    rw [plan] at e
    cases e
    rfl

/-- The counts of a new VM stand. -/
lemma Sys.counted_start {main : Loaded} {builtins : Builtins} {config : VmConfig} {vm : Vm}
    (boot : Vm.new main builtins config = .ok vm) : vm.start.Counted := by
  unfold Vm.new at boot
  cases built : buildCore main.program builtins config with
  | error kind =>
    rw [built] at boot
    cases boot
  | ok core =>
    rw [built] at boot
    cases boot
    have tally := Core.tally_build built
    have suppressed : core.suppressed = 0 := congrArg Tally.suppressed tally
    have warnings : core.warnings = [] := congrArg Tally.log tally
    have raised : core.raised = [] := congrArg Tally.raised tally
    refine ⟨?_, [], [], [], ?_, ?_, rfl⟩
    · show core.suppressed ≤ core.warningsThisCall
      rw [suppressed]
      exact Nat.zero_le _
    · show core.raised.Perm []
      rw [raised]
    · show ([] ++ core.warnings : List Warning).Perm ([] ++ [].map notice)
      rw [warnings]
      exact .refl _

/-- When a top-level call returns, of all the warnings that were raised since the boot, by the host, its
builtins and its threads, the host was told each once or was told how many the others were, if the
counts did not stop at their maximum and those left out were all raised in top-level calls. -/
theorem warnings_told {F : FloatOps} {main : Loaded} {builtins : Builtins} {config : VmConfig} {vm : Vm}
    (boot : Vm.new main builtins config = .ok vm) {as : List Action} {a : Action} {s t : Sys}
    (runs : vm.start.actsIdleReset F as = some s) (last : s.actIdleReset F a = some t)
    (kept : .reset ∉ as ++ [a]) (paced : vm.start.Paced F as) (paces : s.Paces a t)
    (completes : s.Completes a t) : t.Informs := by
  have base : s.Base := Sys.Reachable.base ⟨main, builtins, config, vm, as, boot, runs⟩
  have start : vm.start.Base := Sys.Reachable.base (F := F) ⟨main, builtins, config, vm, [], boot, rfl⟩
  have before := fun h => kept (List.mem_append_left [a] h)
  obtain ⟨counted, marked⟩ := Sys.counted_acts start trivial (Sys.counted_start boot) before paced runs
  have tells := Sys.tells_act base marked (fun e => kept (by rw [e]; exact List.mem_concat_self)) last
  obtain ⟨recorded, omitted, reported, raised, perm, total⟩ := (counted.step tells paces).accounts
  have log : t.tally.log = t.told := by
    show t.told ++ t.vm.core.warnings = t.told
    rw [tells.warnings completes, List.append_nil]
  have none : t.pending = 0 := by
    unfold Sys.pending
    rw [completes.1]
    rfl
  rw [log] at perm
  rw [none] at total
  exact ⟨recorded, omitted, reported, raised, perm, total⟩

/-- So many warnings may be raised in a call before they are left out. -/
def VmConfig.warning (warnings : Nat) : VmConfig :=
  { VmConfig.menu with limits := { Limits.default with warningsPerCall := warnings } }

/-- A program with a builtin. -/
def Asm.oneBuiltin : Asm where
  statements := [⟨0, 0, 0, 0, none⟩]
  functions := [⟨0, 0, 0, 0, 0, 0, []⟩, ⟨-1, 0, 0, 0, 0, 0, []⟩]
  globals := [0]
  strings := [0]

/-- The host warns, and calls a builtin that warns twice. -/
def warnAndCall : List Action :=
  [.host (.warn "a"), .call (.new 0 1) [], .host (.warn "b"), .host (.warn "c")]

/-- At a run in which a builtin warns twice within a call, after the host warned once. -/
theorem warnings_told_once : ∃ (vm : Vm) (s t : Sys),
    vm.start.actsIdleReset .onZero warnAndCall = some s ∧
    s.actIdleReset .onZero (.finish (.ok ())) = some t ∧ t.vm.core.raised.length = 3 ∧ t.Informs := by
  have test : (Asm.oneBuiltin.boot .one (.warning 1)).any (fun vm =>
      vm.start.paced .onZero warnAndCall && (vm.start.actsIdleReset .onZero warnAndCall).any fun s =>
        (s.actIdleReset .onZero (.finish (.ok ()))).any fun t =>
          decide (s.Paces (.finish (.ok ())) t ∧ s.Completes (.finish (.ok ())) t ∧
            t.vm.core.raised.length = 3)) = true := by
    decide +kernel
  obtain ⟨vm, boot, test⟩ := (Option.any_eq_true _ _).mp test
  obtain ⟨paced, test⟩ := Bool.and_eq_true_iff.mp test
  obtain ⟨s, runs, test⟩ := (Option.any_eq_true _ _).mp test
  obtain ⟨t, last, test⟩ := (Option.any_eq_true _ _).mp test
  obtain ⟨paces, completes, three⟩ := of_decide_eq_true test
  obtain ⟨main, -, new⟩ := new_of_boot boot
  exact ⟨vm, s, t, runs, last, three, warnings_told new runs last (by simp [warnAndCall])
    (Sys.paced_iff.mp paced) paces completes⟩

/-- With room for one warning a call, the second of two that the host raises is forgotten when it calls
a function next. -/
theorem warning_forgotten : ¬ ∀ (F : FloatOps) (main : Loaded) (builtins : Builtins) (config : VmConfig)
    (vm : Vm) (as : List Action) (a : Action) (s t : Sys), Vm.new main builtins config = .ok vm →
    vm.start.actsIdleReset F as = some s → s.actIdleReset F a = some t → .reset ∉ as ++ [a] →
    s.Completes a t → t.Informs := by
  intro claim
  have test : (Asm.minimal.boot .none (.warning 1)).any (fun vm =>
      (vm.start.actsIdleReset .onZero [.host (.warn "a"), .host (.warn "b")]).any fun s =>
        (s.actIdleReset .onZero (.call (.new 0 0) [])).any fun t =>
          decide (s.Completes (.call (.new 0 0) []) t ∧ t.vm.core.raised.length = 2 ∧
            t.told = [⟨.builtin "a", []⟩])) = true := by
    decide +kernel
  obtain ⟨vm, boot, test⟩ := (Option.any_eq_true _ _).mp test
  obtain ⟨s, runs, test⟩ := (Option.any_eq_true _ _).mp test
  obtain ⟨t, last, test⟩ := (Option.any_eq_true _ _).mp test
  obtain ⟨completes, two, told⟩ := of_decide_eq_true test
  obtain ⟨main, -, new⟩ := new_of_boot boot
  obtain ⟨recorded, omitted, reported, raised, perm, total⟩ :=
    claim .onZero main .none (.warning 1) vm _ _ s t new runs last (by simp) completes
  rw [told] at perm
  have all := raised.length_eq
  have length := perm.length_eq
  rw [two, List.length_append] at all
  rw [List.length_append, List.length_map, List.length_singleton] at length
  cases reported with
  | nil =>
    rw [List.sum_nil, List.length_nil] at *
    omega
  | cons m reported =>
    have here : notice m ∈ [⟨.builtin "a", []⟩] :=
      perm.mem_iff.mpr (List.mem_append_right _ List.mem_cons_self)
    cases List.mem_singleton.mp here

end Qcvm

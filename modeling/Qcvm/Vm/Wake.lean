import Qcvm.Vm.Boot
import Qcvm.Vm.Steady

/-!
# Waking threads

`Vm::run_threads` takes the threads that are due off the sleeping ones, resumes them in wake order
and puts what is left of them back when one fails. Whatever the resumed threads do meanwhile, no
other call touches the threads in hand, and the sleeping ones only grow by those that are suspended.
-/

namespace Qcvm

open Lib

/-- The threads that are due, in wake order, those of one wake time in queue order. -/
structure Core.WakeOrder (F : FloatOps) (core : Core) (due : List Thread) : Prop where
  perm : due.Perm (core.threads.filter fun t => F.le t.wake core.qcTime)
  ordered : due.Pairwise fun a b => totalKey a.wake ≤ totalKey b.wake
  stable : ∀ key : Int, due.filter (fun t => totalKey t.wake = key)
    = (core.threads.filter fun t => F.le t.wake core.qcTime).filter fun t => totalKey t.wake = key

/-- The threads that are not due. -/
def Core.asleep (F : FloatOps) (core : Core) : List Thread :=
  core.threads.filter fun t => !F.le t.wake core.qcTime

/-- A stable sort keeps the order of what it cannot tell apart. -/
lemma filter_insertionSort {α : Type} (key : α → Int) (l : List α) (k : Int) :
    (l.insertionSort fun a b => key a ≤ key b).filter (fun a => key a = k)
      = l.filter fun a => key a = k := by
  have alike : (l.filter fun a => key a = k).Pairwise fun a b => key a ≤ key b := by
    refine List.pairwise_of_forall_mem_list fun a ma b mb => ?_
    have ea : key a = k := by simpa using (List.mem_filter.mp ma).2
    have eb : key b = k := by simpa using (List.mem_filter.mp mb).2
    omega
  have : Std.Total fun a b : α => key a ≤ key b := ⟨fun a b => Int.le_total _ _⟩
  have : IsTrans α fun a b => key a ≤ key b := ⟨fun a b c => Int.le_trans⟩
  have kept := (List.sublist_insertionSort alike List.filter_sublist).filter fun a => key a = k
  rw [List.filter_filter, List.filter_congr (q := fun a => key a = k) (by simp)] at kept
  exact (kept.eq_of_length
    ((List.perm_insertionSort (fun a b => key a ≤ key b) l).filter _).length_eq.symm).symm

/-- `run_threads` takes the due threads in wake order. -/
lemma Core.wakeOrder_takeDue (F : FloatOps) (core : Core) :
    core.WakeOrder F (core.takeDue F).1 where
  perm := List.perm_insertionSort _ _
  ordered := by
    have : Std.Total fun a b : Thread => totalKey a.wake ≤ totalKey b.wake :=
      ⟨fun a b => Int.le_total _ _⟩
    have : IsTrans Thread fun a b => totalKey a.wake ≤ totalKey b.wake :=
      ⟨fun a b c => Int.le_trans⟩
    exact List.pairwise_insertionSort _ _
  stable := filter_insertionSort (fun t : Thread => totalKey t.wake) _

namespace Sys

/-- The threads `run_threads` has in hand and the number that ran, if it waits for a thread. -/
def waking (s : Sys) : Option (List Thread × Nat) :=
  s.stack.getLast?.bind fun p =>
    match p.origin with
    | .threads queue ran => some (queue, ran)
    | .call _ _ _ _ => none

/-- The thread that an action suspends. -/
def suspends (F : FloatOps) (s : Sys) : Action → List Thread
  | .host (.suspend delay resume) =>
    match s.vm.core.suspend F delay resume with
    | (.ok true, _) => (s.vm.core.snapshot (F.add s.vm.core.qcTime delay) resume).toList
    | _ => []
  | _ => []

/-- What a call of `run_threads` from `s` on has done: the threads it called `resume` with, the
threads that were suspended meanwhile, and the system it led to. -/
inductive RunsThreads (F : FloatOps) (s : Sys) : List Thread → List Thread → Sys → Prop where
  /-- The call takes the threads that are due and resumes the first. -/
  | begin {queue} {u : Sys} : s.actIdleReset F .runThreads = some (u.nextThread queue 0) → u.stack = [] →
    RunsThreads F s queue.head?.toList [] (u.nextThread queue 0)
  /-- The resumed thread goes on. -/
  | goesOn {resumed suspended a} {t u : Sys} : RunsThreads F s resumed suspended t → t.stack ≠ [] →
    t.actIdleReset F a = some u → u.waking = t.waking →
    RunsThreads F s resumed (suspended ++ t.suspends F a) u
  /-- The resumed thread ends, and the next one is resumed unless it failed. -/
  | ends {resumed suspended queue ran a} {t u : Sys} (r : Except VmError Unit) :
    RunsThreads F s resumed suspended t → t.waking = some (queue, ran) → u.stack = [] →
    t.actIdleReset F a = some (u.endThread queue ran r) →
    RunsThreads F s (resumed ++ match r with | .ok () => queue.head?.toList | .error _ => [])
      suspended (u.endThread queue ran r)

/-- The systems from the begin of a call of `run_threads` to its return. -/
inductive DuringThreads (F : FloatOps) (s : Sys) : Sys → Prop where
  | begin {t} : s.actIdleReset F .runThreads = some t → DuringThreads F s t
  | step {a} {t u : Sys} : DuringThreads F s t → t.stack ≠ [] → t.actIdleReset F a = some u → DuringThreads F s u

/-- The system with other threads asleep. -/
def sleeping (s : Sys) (threads : List Thread) : Sys :=
  s.mapCore fun core => { core with threads := threads }

/-! ## What an action does to the threads -/

/-- An action of the innermost call `p`: the call stays, or it ends and hands its result on. -/
def Continues (s : Sys) (p : Pending) (rest : List Pending) (t : Sys) : Prop :=
  (t.vm.core.threads = s.vm.core.threads ∧ ∃ q : Pending, q.origin = p.origin ∧ t.stack = q :: rest) ∨
    ∃ (u : Sys) (r : Except VmError Unit), u.vm.core.threads = s.vm.core.threads ∧
      u.stack = rest ∧ t = u.deliver p.origin r

variable {F : FloatOps} {s t u : Sys} {p : Pending} {rest : List Pending}

/-- The bookkeeping of a call leaves the threads alone. -/
lemma steady_threads (F : FloatOps) :
    Steady F fun s t => t.vm.core.threads = s.vm.core.threads where
  refl _ := rfl
  trans a b := b.trans a
  restack _ _ := rfl
  flush _ := rfl
  trace _ _ _ _ := rfl
  restore s r := by
    unfold restore
    split
    next => rfl
    next => rfl
  builtin _ _ := rfl
  aborts _ _ := rfl
  unwind s depth := congrArg Core.Fixed.threads (s.vm.core.moved_unwind depth).fixed
  warn s kind := (Core.quiet_warn s.vm.core kind).threads
  ret s words := (Core.quiet_retRaw s.vm.core words).threads
  state _ _ := (Core.quiet_defaultStateOp _ _ _).threads
  run s exitDepth expires sizes b := by
    have ran : Vm.Ran exitDepth s.vm (Vm.runChunks F exitDepth expires sizes s.vm) :=
      Vm.ran_runChunks expires sizes s.vm b.layout.mem.toRegions
    exact congrArg Core.Fixed.threads ran.core.fixed

/-- Nothing happens to the threads, and at most a call of a host begins. -/
def Begins (s t : Sys) : Prop :=
  t.vm.core.threads = s.vm.core.threads ∧
    (t.stack = s.stack ∨ ∃ p argc builtin topLevel pr, t.stack = p :: s.stack ∧
      p.origin = .call argc builtin topLevel pr)

/-- How an action begins depends on the threads and the stack alone. -/
lemma Begins.congr (h : t.Begins u) (threads : t.vm.core.threads = s.vm.core.threads)
    (stack : t.stack = s.stack) : s.Begins u := by
  obtain ⟨kept, calls⟩ := h
  rw [stack] at calls
  exact ⟨kept.trans threads, calls⟩

/-- A calm change begins nothing. -/
lemma begins_calm (c : s.Calm t) : s.Begins t := ⟨c.core.threads, .inl c.stack⟩

/-- The end of a call begins nothing. -/
lemma begins_endCall (s : Sys) (argc : Nat) (builtin : FuncRef) (topLevel : Bool) (retPr : Nat)
    (r : Except VmError Unit) : s.Begins (s.endCall argc builtin topLevel retPr r) := by
  unfold endCall
  dsimp only
  split
  next =>
    refine (begins_calm (calm_endTopLevel.trans (calm_emit _))).congr ?_ ?_
    · rfl
    · rfl
  next => exact ⟨rfl, .inl rfl⟩

/-- Dispatching a call begins a call, or fails. -/
lemma begins_dispatch (s : Sys) (f : FuncRef) (callee : Option Callee) (argc : Nat)
    (builtin : FuncRef) (topLevel : Bool) (retPr : Nat) :
    s.Begins (s.dispatch f callee (.call argc builtin topLevel retPr)) := by
  have ended (t : Sys) (r : Except VmError Unit) :
      t.Begins (t.deliver (.call argc builtin topLevel retPr) r) := begins_endCall t _ _ _ _ r
  have threads := congrArg Core.Fixed.threads
    (Core.moved_enter s.vm.core f.progs f.index s.vm.core.x.pc).fixed
  unfold dispatch
  dsimp only
  split
  next =>
    split
    next entered e =>
      rw [e] at threads
      exact ⟨threads, .inr ⟨_, _, _, _, _, rfl, rfl⟩⟩
    next kind entered e =>
      rw [e] at threads
      exact (ended _ _).congr threads rfl
  next slot =>
    unfold enterBuiltin
    split
    next => exact ⟨rfl, .inr ⟨_, _, _, _, _, rfl, rfl⟩⟩
    next =>
      rw [failed_of_le (Nat.le_refl s.vm.core.frames.length)]
      exact (ended (restore _ _) _).congr rfl rfl
  next => exact ended s _
  next => exact ended s _
  next => exact ended s _
  next => exact ended s _

/-- A call begins a call, or fails. -/
lemma begins_call (s : Sys) (f : FuncRef) (args : List Arg) : s.Begins (s.call f args) := by
  unfold call
  dsimp only
  split
  next => exact ⟨rfl, .inl rfl⟩
  next =>
    obtain ⟨vm, e, threads⟩ : ∃ vm, vm = (if s.vm.core.nesting == 0 then
        { s.vm with core := { s.vm.core with warningsThisCall := 0, suppressed := 0 } }.startBudgets
        else s.vm) ∧ vm.core.threads = s.vm.core.threads := by
      refine ⟨_, rfl, ?_⟩
      split <;> rfl
    rw [← e]
    generalize (if s.vm.core.callee f = some .qc then s.vm.core.x.prnum else f.progs) = pr
    have quiet := vm.core.quiet_writeArgs pr args
    split
    next kind written e =>
      rw [e] at quiet
      exact ⟨quiet.threads.trans threads, .inl rfl⟩
    next written e =>
      rw [e] at quiet
      exact (begins_dispatch _ _ _ _ _ _ _).congr (quiet.threads.trans threads) rfl

/-! ## While a thread runs -/

/-- A nested call does not change the threads in hand. -/
lemma waking_cons (p : Pending) (rest : List Pending) (some : rest ≠ []) (vm : Vm)
    (events : List Event) : waking ⟨vm, p :: rest, events⟩ = waking ⟨vm, rest, events⟩ := by
  obtain ⟨q, rest, rfl⟩ := List.exists_cons_of_ne_nil some
  rfl

/-- The threads in hand depend on the stack alone. -/
lemma waking_congr (e : t.stack = s.stack) : t.waking = s.waking := by
  unfold waking
  rw [e]

/-- What begins on top of a call does not change the threads in hand. -/
lemma Begins.waking (h : s.Begins t) (some : s.stack ≠ []) : t.waking = s.waking := by
  obtain ⟨-, stack | ⟨p, argc, builtin, topLevel, pr, stack, -⟩⟩ := h
  · exact waking_congr stack
  · obtain ⟨vm, calls, events⟩ := t
    cases stack
    exact waking_cons p s.stack some vm events

/-- An innermost call that is not the outermost is a host call, and ends as one. -/
lemma Continues.waking (h : s.Continues p rest t) (b : s.Base) (e : s.stack = p :: rest)
    {queue : List Thread} {ran : Nat} (w : s.waking = some (queue, ran)) :
    (t.waking = s.waking ∧ t.vm.core.threads = s.vm.core.threads) ∨
      ∃ (u : Sys) (r : Except VmError Unit), u.stack = [] ∧
        u.vm.core.threads = s.vm.core.threads ∧ t = u.endThread queue ran r := by
  have here : s.waking = (p :: rest).getLast?.bind fun p =>
      match p.origin with
      | .threads queue ran => Option.some (queue, ran)
      | .call _ _ _ _ => none := by rw [← e]; rfl
  rcases h with ⟨threads, q, origin, stack⟩ | ⟨u, r, threads, stack, rfl⟩
  · refine .inl ⟨?_, threads⟩
    unfold Sys.waking
    rw [stack, e]
    cases rest with
    | nil => simp only [List.getLast?_singleton, Option.bind_some, origin]
    | cons first others => rw [List.getLast?_cons_cons, List.getLast?_cons_cons]
  · cases rest with
    | nil =>
      refine .inr ⟨u, r, stack, threads, ?_⟩
      rw [w, List.getLast?_singleton, Option.bind_some] at here
      cases origin : p.origin with
      | call argc builtin topLevel retPr =>
        rw [origin] at here
        cases here
      | threads q n =>
        rw [origin] at here
        cases here
        rfl
    | cons first others =>
      cases origin : p.origin with
      | call argc builtin topLevel retPr =>
        have ended := begins_endCall u argc builtin topLevel retPr r
        refine .inl ⟨?_, ended.1.trans threads⟩
        show (u.endCall argc builtin topLevel retPr r).waking = s.waking
        rw [ended.waking (by rw [stack]; nofun), here, List.getLast?_cons_cons]
        unfold Sys.waking
        rw [stack]
      | threads q n =>
        refine absurd origin (b.outermost p ?_ q n)
        rw [e, List.dropLast_cons_cons]
        exact List.mem_cons_self

/-- A host operation suspends at most a thread. -/
lemma threads_host (s : Sys) (op : HostOp) :
    (s.vm.host F op).core.threads = s.vm.core.threads ++ s.suspends F (.host op) := by
  rw [Vm.core_host]
  cases op with
  | suspend delay resume =>
    simp only [Core.host, suspends, Core.suspend]
    split
    next => exact (List.append_nil _).symm
    next =>
      cases s.vm.core.snapshot (F.add s.vm.core.qcTime delay) resume with
      | none => exact (List.append_nil _).symm
      | some thread =>
        dsimp only
        split
        next => exact (List.append_nil _).symm
        next => rfl
  | _ =>
    rcases (@Core.hosted F s.vm.builtins s.vm.core _).threads with
      same | ⟨delay, resume, thread, e, -⟩
    · exact same.trans (List.append_nil _).symm
    · cases e

/-- What an action is, as far as the threads go. -/
inductive Acted (F : FloatOps) (s : Sys) : Action → Sys → Prop where
  | host {op : HostOp} : Acted F s (.host op) { s with vm := s.vm.host F op }
  /-- A host call begins, or is refused. -/
  | begins {a : Action} {t : Sys} : s.suspends F a = [] → s.Begins t → Acted F s a t
  | wakes : s.stack = [] → Acted F s .runThreads
      ((s.mapCore fun core => (core.takeDue F).2).nextThread (s.vm.core.takeDue F).1 0)
  | resets : s.stack = [] → Acted F s .reset { s with vm := s.vm.reset }
  /-- The innermost call goes on or ends. -/
  | continues {a : Action} {t : Sys} {p : Pending} {rest : List Pending} : s.stack = p :: rest →
    s.suspends F a = [] → s.Continues p rest t → Acted F s a t

/-- Every action acts on the threads as `Acted` says. -/
lemma acted {a : Action} (b : s.Base) (e : s.actIdleReset F a = some t) : s.Acted F a t := by
  by_cases inner : a.Inner
  · obtain ⟨p, rest, here, continues⟩ := (steady_threads F).act inner b e
    refine .continues here ?_ continues
    cases a with
    | host | call | runThreads | reset => exact inner.elim
    | run | finish | stateDone => rfl
  rw [actIdleReset_eq_some] at e
  obtain ⟨e, apart⟩ := e
  unfold act at e
  split at e
  next op =>
    split at e
    next =>
      cases e
      exact .host
    next => cases e
  next f args =>
    split at e
    next =>
      cases e
      exact .begins rfl (begins_call s f args)
    next => cases e
  next =>
    split at e
    next =>
      cases e
      unfold runThreads
      split
      next => exact .begins rfl ⟨rfl, .inl rfl⟩
      next outermost =>
        refine .wakes (List.length_eq_zero_iff.mp ?_)
        rw [← b.nesting]
        omega
    next => cases e
  next =>
    split at e
    next =>
      cases e
      exact .resets (apart rfl)
    next => cases e
  next => exact absurd trivial inner
  next => exact absurd trivial inner
  next => exact absurd trivial inner
  next => cases e

/-- While `run_threads` waits for a thread, an action leaves the threads in hand alone or ends the
thread it waits for; the sleeping ones grow by the one it suspends. -/
theorem act_waking {a : Action} (b : s.Base) {queue : List Thread} {ran : Nat}
    (w : s.waking = some (queue, ran)) (e : s.actIdleReset F a = some t) :
    (t.waking = s.waking ∧ t.vm.core.threads = s.vm.core.threads ++ s.suspends F a) ∨
      ∃ (u : Sys) (r : Except VmError Unit), u.stack = [] ∧
        u.vm.core.threads = s.vm.core.threads ∧ t = u.endThread queue ran r := by
  have busy : s.stack ≠ [] := by
    intro idle
    rw [waking, idle] at w
    cases w
  cases acted b e with
  | @host op => exact .inl ⟨rfl, threads_host s op⟩
  | begins none begins =>
    refine .inl ⟨begins.waking busy, ?_⟩
    rw [none, List.append_nil]
    exact begins.1
  | wakes idle => exact absurd idle busy
  | resets idle => exact absurd idle busy
  | continues here none continues =>
    rcases continues.waking b here w with ⟨same, threads⟩ | ended
    · refine .inl ⟨same, ?_⟩
      rw [none, List.append_nil]
      exact threads
    · exact .inr ended

/-! ## The loop -/

/-- Where a call of `run_threads` has come to, and that no thread is lost. It keeps `asleep`; of the
threads `due`, it called `resume` with `resumed`, and `suspended` were suspended meanwhile. -/
inductive Conserves (asleep due resumed suspended : List Thread) (t : Sys) : Prop where
  /-- It waits for the thread that was resumed last. -/
  | waits {queue : List Thread} {ran : Nat} : due = resumed ++ queue → resumed.length = ran + 1 →
    t.waking = some (queue, ran) → t.vm.core.threads = asleep ++ suspended →
    Conserves asleep due resumed suspended t
  /-- It returns how many threads ran. -/
  | returns : due = resumed → t.stack = [] →
    t.events.getLast? = some (.ranThreads (.ok due.length)) →
    t.vm.core.threads = asleep ++ suspended → Conserves asleep due resumed suspended t
  /-- It returns the error of the thread that was resumed last. -/
  | fails {queue : List Thread} {e : VmError} : due = resumed ++ queue → resumed ≠ [] →
    t.stack = [] → t.events.getLast? = some (.ranThreads (.error e)) →
    t.vm.core.threads = asleep ++ suspended ++ queue → Conserves asleep due resumed suspended t

variable {asleep due resumed suspended queue : List Thread}

/-- The head of the loop resumes the next thread, if there is one. -/
lemma conserves_nextThread (idle : s.stack = []) (split : due = resumed ++ queue)
    (kept : s.vm.core.threads = asleep ++ suspended) :
    Conserves asleep due (resumed ++ queue.head?.toList) suspended
      (s.nextThread queue resumed.length) := by
  cases queue with
  | nil =>
    have calm := (calm_collect (s := s)).trans (calm_emit (.ranThreads (.ok resumed.length)))
    have all : due = resumed := by rw [split, List.append_nil]
    refine .returns ?_ ?_ ?_ ?_
    · rw [all]
      exact (List.append_nil _).symm
    · exact calm.stack.trans idle
    · rw [all]
      exact List.getLast?_concat
    · exact calm.core.threads.trans kept
  | cons thread queue =>
    let core := { s.vm.startBudgets.core with nesting := s.vm.startBudgets.core.nesting + 1 }
    have fixed := congrArg Core.Fixed.threads (core.fixed_resumeThread thread)
    have more : due = resumed ++ [thread] ++ queue := by rw [split, List.append_assoc]; rfl
    show Conserves asleep due (resumed ++ [thread]) suspended _
    unfold nextThread
    dsimp only
    split
    next kind failed e =>
      rw [e] at fixed
      refine @Conserves.fails _ _ _ _ _ queue (.new kind) more (by simp) idle ?_ ?_
      · exact List.getLast?_concat
      · exact congrArg (· ++ queue) (fixed.trans kept)
    next entered e =>
      rw [e] at fixed
      refine @Conserves.waits _ _ _ _ _ queue resumed.length more (by simp) ?_ (fixed.trans kept)
      unfold waking
      rw [idle]
      rfl

/-- No call of `run_threads` loses or duplicates a thread, whatever the threads do. -/
lemma DuringThreads.conserves (b : s.Base) (idle : s.stack = []) (d : s.DuringThreads F t) :
    t.Base ∧ ∃ resumed suspended, s.RunsThreads F resumed suspended t ∧
      Conserves (s.vm.core.asleep F) (s.vm.core.takeDue F).1 resumed suspended t := by
  induction d with
  | @begin t e =>
    have outermost : ¬ s.vm.core.nesting > 0 := by
      rw [b.nesting, idle]
      exact Nat.lt_irrefl 0
    have host : s.hostRuns = true := by
      unfold hostRuns
      rw [idle]
    have begins : s.actIdleReset F .runThreads
        = some ((s.mapCore fun core => (core.takeDue F).2).nextThread (s.vm.core.takeDue F).1 0) := by
      rw [actIdleReset_of_ne (by nofun)]
      simp only [act, host, if_true, runThreads, if_neg outermost]
    obtain rfl := Option.some.inj (begins.symm.trans e)
    refine ⟨b.act e, _, _, .begin begins idle, ?_⟩
    exact @conserves_nextThread (s.mapCore fun core => (core.takeDue F).2) _ _ [] _ _ idle rfl
      (List.append_nil _).symm
  | @step t a u _ busy e ih =>
    obtain ⟨base, resumed, suspended, runs, conserves⟩ := ih
    refine ⟨base.act e, ?_⟩
    cases conserves with
    | returns _ returned => exact absurd returned busy
    | fails _ _ returned => exact absurd returned busy
    | @waits queue ran split count w kept =>
      rcases act_waking base w e with ⟨same, threads⟩ | ⟨v, r, idle, threads, rfl⟩
      · refine ⟨_, _, runs.goesOn busy e same, .waits split count (same.trans w) ?_⟩
        rw [threads, kept, List.append_assoc]
      · refine ⟨_, _, runs.ends r w idle e, ?_⟩
        unfold endThread
        dsimp only
        cases r with
        | ok _ =>
          rw [← count]
          exact conserves_nextThread idle split (threads.trans kept)
        | error error =>
          refine @Conserves.fails _ _ _ _ _ queue error ?_ ?_ idle List.getLast?_concat ?_
          · rw [List.append_nil]
            exact split
          · rw [List.append_nil]
            exact List.ne_nil_of_length_pos (by omega)
          · exact congrArg (· ++ queue) (threads.trans kept)

end Sys

/-- Threads that wake at 2.0, at once and at once. -/
def Thread.some : List Thread :=
  [⟨0x40000000, [], [], 0, [], (0, 0, 0), []⟩, ⟨0, [], [], 0, [], (1, 0, 0), []⟩,
    ⟨0, [], [], 0, [], (2, 0, 0), []⟩]

end Qcvm

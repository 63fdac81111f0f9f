import Mathlib.Data.List.Induction
import Qcvm.Vm.Resume

/-!
# The thread limits

`suspend` checks the limits against the threads that sleep, and `run_threads` takes the threads that
are due off those. While it resumes them the sleeping ones may reach the limits again; when a thread
fails then, the ones it has not resumed are put back on top.
-/

namespace Qcvm

open Lib

/-- So many threads, with so much data, may sleep. -/
def Limits.Allow (limits : Limits) (threads : List Thread) : Prop :=
  threads.length ≤ limits.threads ∧ Qcvm.threadBytes threads ≤ limits.threadBytes

instance (limits : Limits) (threads : List Thread) : Decidable (limits.Allow threads) :=
  inferInstanceAs (Decidable (_ ∧ _))

lemma threadBytes_append (l l' : List Thread) :
    threadBytes (l ++ l') = threadBytes l + threadBytes l' := by
  unfold threadBytes
  rw [List.map_append, List.sum_append_nat]

/-- The order of the threads does not matter, and fewer are allowed too. -/
lemma Limits.Allow.perm {limits : Limits} {all some others : List Thread}
    (allow : limits.Allow all) (perm : (some ++ others).Perm all) : limits.Allow some := by
  have length := perm.length_eq
  have bytes : Qcvm.threadBytes (some ++ others) = Qcvm.threadBytes all :=
    (perm.map fun t : Thread => t.data.length).sum_nat
  rw [List.length_append] at length
  rw [threadBytes_append] at bytes
  obtain ⟨few, small⟩ := allow
  constructor
  · omega
  · omega

namespace Sys

/-- The limits of a system. -/
def limits (s : Sys) : Limits := s.vm.core.config.limits

/-- No more threads sleep than may. -/
def WithinThreads (s : Sys) : Prop := s.limits.Allow s.vm.core.threads

instance (s : Sys) : Decidable s.WithinThreads := inferInstanceAs (Decidable (s.limits.Allow _))

/-- A thread that `run_threads` waits for fails, or the one after it cannot be resumed: the threads
that are not resumed yet go back to sleep. -/
inductive PutsBack (F : FloatOps) (s : Sys) (a : Action) : List Thread → Prop where
  | failed {queue : List Thread} {ran : Nat} {u : Sys} {e : VmError} :
    s.waking = some (queue, ran) → u.stack = [] → u.vm.core.threads = s.vm.core.threads →
    s.actIdleReset F a = some (u.endThread queue ran (.error e)) → PutsBack F s a queue
  | stale {thread : Thread} {queue : List Thread} {ran : Nat} {u : Sys} :
    s.waking = some (thread :: queue, ran) → u.stack = [] → u.vm.core.threads = s.vm.core.threads →
    s.actIdleReset F a = some (u.endThread (thread :: queue) ran (.ok ())) →
    (u.endThread (thread :: queue) ran (.ok ())).stack = [] → PutsBack F s a queue

/-- What an action does to the sleeping threads. -/
inductive Sleeps (F : FloatOps) (s : Sys) (a : Action) (t : Sys) : Prop where
  /-- At most one is suspended. -/
  | more : t.vm.core.threads = s.vm.core.threads ++ s.suspends F a → Sleeps F s a t
  /-- Some are taken to be resumed, or a reset drops them all. -/
  | fewer {others : List Thread} :
    (t.vm.core.threads ++ others).Perm s.vm.core.threads → Sleeps F s a t
  /-- Some are put back. -/
  | back {queue : List Thread} : s.PutsBack F a queue →
    t.vm.core.threads = s.vm.core.threads ++ queue → Sleeps F s a t

variable {F : FloatOps} {s t u : Sys} {a : Action}

/-! ## The next thread -/

/-- At the head of its loop `run_threads` waits for a thread, or puts those behind it back. -/
lemma threads_nextThread (s : Sys) (queue : List Thread) (ran : Nat) :
    ((s.nextThread queue ran).vm.core.threads = s.vm.core.threads ∧
        (queue = [] ∨ (s.nextThread queue ran).stack ≠ [])) ∨
      ∃ thread rest, queue = thread :: rest ∧
        (s.nextThread queue ran).stack = s.stack ∧
        (s.nextThread queue ran).vm.core.threads = s.vm.core.threads ++ rest := by
  cases queue with
  | nil => exact .inl ⟨(calm_collect (s := s)).core.threads, .inl rfl⟩
  | cons thread rest =>
    let core := { s.vm.startBudgets.core with nesting := s.vm.startBudgets.core.nesting + 1 }
    have fixed : (core.resumeThread thread).2.threads = s.vm.core.threads :=
      congrArg Core.Fixed.threads (core.fixed_resumeThread thread)
    unfold nextThread
    dsimp only
    split
    next kind failed e =>
      rw [e] at fixed
      exact .inr ⟨thread, rest, rfl, rfl, congrArg (· ++ rest) fixed⟩
    next entered e =>
      rw [e] at fixed
      exact .inl ⟨fixed, .inr (List.cons_ne_nil _ _)⟩

/-- An ending thread leaves the sleeping ones alone, or others are put back. -/
lemma sleeps_endThread {queue : List Thread} {ran : Nat} (w : s.waking = some (queue, ran))
    (r : Except VmError Unit) (idle : u.stack = []) (threads : u.vm.core.threads = s.vm.core.threads)
    (e : s.actIdleReset F a = some (u.endThread queue ran r)) : s.Sleeps F a (u.endThread queue ran r) := by
  cases r with
  | error error => exact .back (.failed w idle threads e) (congrArg (· ++ queue) threads)
  | ok _ =>
    let v := (u.mapCore fun core => { core with abortRet := none, nesting := core.nesting - 1 }).flush
    rcases threads_nextThread v queue (ran + 1) with ⟨same, -⟩ | ⟨thread, rest, rfl, stack, back⟩
    · refine @Sleeps.fewer _ _ _ _ [] ?_
      rw [List.append_nil]
      exact .of_eq (same.trans threads)
    · exact .back (.stale w idle threads e (stack.trans idle)) (back.trans (congrArg (· ++ rest) threads))

/-- The sleeping threads that are not due and those that are make up all. -/
lemma perm_takeDue (F : FloatOps) (core : Core) :
    ((core.takeDue F).2.threads ++ (core.takeDue F).1).Perm core.threads := by
  refine ((Core.wakeOrder_takeDue F core).perm.append_left _).trans ?_
  refine List.perm_append_comm.trans ?_
  exact List.filter_append_perm (fun t : Thread => F.le t.wake core.qcTime) core.threads

/-! ## Actions -/

/-- An innermost call that ends is the one of `run_threads`, or leaves the threads alone. -/
lemma Continues.sleeps {p : Pending} {rest : List Pending} (h : s.Continues p rest t) (b : s.Base)
    (here : s.stack = p :: rest) (e : s.actIdleReset F a = some t) : s.Sleeps F a t := by
  have still (same : t.vm.core.threads = s.vm.core.threads) : s.Sleeps F a t := by
    refine @Sleeps.fewer _ _ _ _ [] ?_
    rw [List.append_nil]
    exact .of_eq same
  rcases h with ⟨threads, -⟩ | ⟨u, r, threads, stack, rfl⟩
  · exact still threads
  · cases origin : p.origin with
    | call argc builtin topLevel retPr =>
      rw [origin] at still
      exact still ((begins_endCall u argc builtin topLevel retPr r).1.trans threads)
    | threads queue ran =>
      have last : rest = [] := by
        by_contra more
        refine b.outermost p ?_ queue ran origin
        rw [here, List.dropLast_cons_of_ne_nil more]
        exact List.mem_cons_self
      subst last
      have w : s.waking = some (queue, ran) := by
        unfold Sys.waking
        rw [here, List.getLast?_singleton, Option.bind_some, origin]
      rw [origin] at e
      exact sleeps_endThread w r stack threads e

/-- Whatever happens, threads begin to sleep because they suspend or because one failed. -/
theorem sleeps_act (b : s.Base) (e : s.actIdleReset F a = some t) : s.Sleeps F a t := by
  cases acted b e with
  | @host op => exact .more (threads_host s op)
  | begins none begins =>
    refine .more ?_
    rw [none, List.append_nil]
    exact begins.1
  | wakes idle =>
    let taken := s.mapCore fun core => (core.takeDue F).2
    have all : (taken.vm.core.threads ++ (s.vm.core.takeDue F).1).Perm s.vm.core.threads :=
      perm_takeDue F s.vm.core
    rcases threads_nextThread taken (s.vm.core.takeDue F).1 0 with
      ⟨same, -⟩ | ⟨thread, rest, due, -, back⟩
    · refine @Sleeps.fewer _ _ _ _ ((s.vm.core.takeDue F).1) ?_
      rw [same]
      exact all
    · refine @Sleeps.fewer _ _ _ _ [thread] ?_
      rw [back, List.append_assoc]
      rw [due] at all
      exact (List.perm_append_comm.append_left _).trans all
  | resets idle =>
    have dropped : (s.vm.reset).core.threads = [] ∨ s.vm.reset = s.vm := by
      unfold Vm.reset
      split
      next core built =>
        obtain ⟨sp, h⟩ := Core.built built
        exact .inl h.threads
      next => exact .inr rfl
    rcases dropped with none | same
    · refine @Sleeps.fewer _ _ _ _ (s.vm.core.threads) ?_
      rw [none]
      exact .refl _
    · refine @Sleeps.fewer _ _ _ _ [] ?_
      rw [same, List.append_nil]
  | continues here none continues => exact continues.sleeps b here e

lemma PutsBack.acts {back : List Thread} (h : s.PutsBack F a back) : ∃ t, s.actIdleReset F a = some t := by
  cases h with
  | failed _ _ _ e => exact ⟨_, e⟩
  | stale _ _ _ e _ => exact ⟨_, e⟩

/-- The threads that are put back sleep then. -/
lemma PutsBack.threads {back : List Thread} (h : s.PutsBack F a back) (e : s.actIdleReset F a = some t) :
    t.vm.core.threads = s.vm.core.threads ++ back := by
  cases h with
  | @failed queue ran u error w idle threads ends =>
    obtain rfl := Option.some.inj (ends.symm.trans e)
    exact congrArg (· ++ back) threads
  | @stale thread queue ran u w idle threads ends ended =>
    obtain rfl := Option.some.inj (ends.symm.trans e)
    let v := (u.mapCore fun core => { core with abortRet := none, nesting := core.nesting - 1 }).flush
    rcases threads_nextThread v (thread :: back) (ran + 1) with ⟨-, none | waits⟩ | ⟨_, _, queue, -, kept⟩
    · cases none
    · exact absurd ended waits
    · cases queue
      exact kept.trans (congrArg (· ++ back) threads)

/-! ## Limits -/

/-- A thread is suspended only if it may sleep. -/
lemma allow_suspends (within : s.WithinThreads) (a : Action) :
    s.limits.Allow (s.vm.core.threads ++ s.suspends F a) := by
  have none : s.limits.Allow (s.vm.core.threads ++ []) := by
    rw [List.append_nil]
    exact within
  cases a with
  | host op =>
    have taken := threads_host (F := F) s op
    rw [Vm.core_host] at taken
    rcases (@Core.hosted F s.vm.builtins s.vm.core op).threads with
      same | ⟨delay, resume, thread, -, -, few, small, more⟩
    · rw [← taken, same]
      exact within
    · rw [← taken, more]
      refine ⟨?_, ?_⟩
      · rw [List.length_append]
        exact few
      · rw [threadBytes_append, Nat.add_comm]
        exact small
  | _ => exact none

/-- The limits stay what they are. -/
lemma limits_act (b : s.Base) (e : s.actIdleReset F a = some t) : t.limits = s.limits := by
  have kept : PlainKept F fun core => core.config.limits = s.limits :=
    { plain := fun h p => (congrArg VmConfig.limits p.config).trans h
      host := fun _ h _ => (Core.hosted _ _).limits.trans h }
  by_cases resets : a = .reset
  · subst resets
    obtain ⟨-, rfl⟩ := actIdleReset_reset e
    show s.vm.reset.core.config.limits = s.vm.core.config.limits
    unfold Vm.reset
    split
    next core built =>
      obtain ⟨sp, h⟩ := Core.built built
      exact congrArg VmConfig.limits h.config
    next => rfl
  · exact ((kept.rules a fun reset => absurd reset resets).act rfl b e).2

/-- An action keeps the threads within the limits, unless it puts too many back. -/
theorem withinThreads_act (b : s.Base) (within : s.WithinThreads) (e : s.actIdleReset F a = some t) :
    t.WithinThreads ↔ ∀ back, s.PutsBack F a back → s.limits.Allow (s.vm.core.threads ++ back) := by
  unfold WithinThreads
  rw [limits_act b e]
  constructor
  · intro within back puts
    rw [← puts.threads e]
    exact within
  · intro allowed
    cases sleeps_act b e with
    | more threads =>
      rw [threads]
      exact allow_suspends within a
    | fewer perm => exact Limits.Allow.perm within perm
    | back puts threads =>
      rw [threads]
      exact allowed _ puts

/-- Before the last of some actions there is a system that the others lead to. -/
lemma acts_concat {as : List Action} (e : s.actsIdleReset F (as ++ [a]) = some u) :
    ∃ t, s.actsIdleReset F as = some t ∧ t.actIdleReset F a = some u := by
  induction as generalizing s with
  | nil =>
    obtain ⟨t, first, last⟩ := Option.bind_eq_some_iff.mp e
    cases last
    exact ⟨s, rfl, first⟩
  | cons b as ih =>
    obtain ⟨mid, first, rest⟩ := Option.bind_eq_some_iff.mp e
    obtain ⟨t, acts, last⟩ := ih rest
    exact ⟨t, Option.bind_eq_some_iff.mpr ⟨mid, first, acts⟩, last⟩

end Sys

/-- In a run the sleeping threads stay within the limits if and only if, whenever a resumed thread fails,
those that sleep and those that wait to be resumed are within the limits together. -/
theorem thread_limits {F : FloatOps} {main : Loaded} {builtins : Builtins} {config : VmConfig} {vm : Vm}
    (new : Vm.new main builtins config = .ok vm) (as : List Action) :
    (∀ pre u, pre <+: as → vm.start.actsIdleReset F pre = some u → u.WithinThreads) ↔
      ∀ pre a u, pre ++ [a] <+: as → vm.start.actsIdleReset F pre = some u →
        ∀ back, u.PutsBack F a back → u.limits.Allow (u.vm.core.threads ++ back) := by
  have based {pre : List Action} {u : Sys} (e : vm.start.actsIdleReset F pre = some u) : u.Base :=
    Sys.Reachable.base ⟨main, builtins, config, vm, pre, new, e⟩
  constructor
  · intro within pre a u upto acts back puts
    obtain ⟨t, e⟩ := puts.acts
    have before := within pre u ((List.prefix_append pre [a]).trans upto) acts
    have after := within (pre ++ [a]) t upto
      (Sys.acts_append acts (Option.bind_eq_some_iff.mpr ⟨t, e, rfl⟩))
    exact (Sys.withinThreads_act (based acts) before e).mp after back puts
  · intro allowed pre
    induction pre using List.reverseRecOn with
    | nil =>
      intro u _ e
      cases e
      have none : vm.start.vm.core.threads = [] := by
        unfold Vm.new at new
        cases built : buildCore main.program builtins config with
        | error kind =>
          rw [built] at new
          cases new
        | ok core =>
          rw [built] at new
          cases new
          obtain ⟨sp, h⟩ := Core.built built
          exact h.threads
      unfold Sys.WithinThreads
      rw [none]
      exact ⟨Nat.zero_le _, Nat.zero_le _⟩
    | append_singleton pre a ih =>
      intro t upto e
      obtain ⟨u, acts, last⟩ := Sys.acts_concat e
      have before := ih u ((List.prefix_append pre [a]).trans upto) acts
      exact (Sys.withinThreads_act (based acts) before last).mpr (allowed pre a u upto acts)

/-- A function that calls a builtin twice. -/
def Asm.callsTwice : Asm where
  statements := [⟨0, 0, 0, 0, none⟩, ⟨51, 28, 0, 0, none⟩, ⟨51, 28, 0, 0, none⟩, ⟨0, 0, 0, 0, none⟩]
  functions := [⟨0, 0, 0, 0, 0, 0, []⟩, ⟨-1, 0, 0, 0, 0, 0, []⟩, ⟨1, 29, 0, 0, 0, 0, []⟩]
  globals := List.replicate 28 0 ++ [1, 0]
  strings := [0]

/-- At most so many threads may sleep. -/
def VmConfig.sleepers (threads : Nat) : VmConfig :=
  { VmConfig.menu with limits := { Limits.default with threads := threads } }

/-- The builtin suspends the thread twice. -/
def forkTwice : List Action := [.host (.suspend 0 (1, 0, 0)), .host (.suspend 0 (1, 0, 0))]

/-- The builtin forks twice at its first call; the first thread that is resumed does so again at the
second call, and fails. -/
def forkAndFail : List Action :=
  callSleeper ++ forkTwice ++ returnSleeper ++ returnSleeper ++ [.runThreads, .run [] false] ++
    forkTwice ++ [.finish (.error (.new (.host "out of disk")))]

theorem thread_limits_twice : ∃ vm : Vm, (vm.start.actsIdleReset .onZero forkAndFail).isSome ∧
    ((∀ pre u, pre <+: forkAndFail → vm.start.actsIdleReset .onZero pre = some u → u.WithinThreads) ↔
      ∀ pre a u, pre ++ [a] <+: forkAndFail → vm.start.actsIdleReset .onZero pre = some u →
        ∀ back, u.PutsBack .onZero a back → u.limits.Allow (u.vm.core.threads ++ back)) := by
  have test : (Asm.callsTwice.boot .one (.sleepers 3)).any (fun vm =>
      (vm.start.actsIdleReset .onZero forkAndFail).isSome) = true := by
    decide +kernel
  obtain ⟨vm, boot, test⟩ := (Option.any_eq_true _ _).mp test
  obtain ⟨main, -, new⟩ := new_of_boot boot
  exact ⟨vm, test, thread_limits new forkAndFail⟩

/-- With room for two threads, three sleep when the first of two that are resumed has forked twice and
fails. -/
theorem threads_overflow : ¬ ∀ (F : FloatOps) (s : Sys), s.Reachable F → s.stack = [] →
    s.WithinThreads := by
  intro claim
  have test : (Asm.callsTwice.boot .one (.sleepers 2)).any (fun vm =>
      (vm.start.actsIdleReset .onZero forkAndFail).any fun s =>
        s.stack.isEmpty && !decide s.WithinThreads) = true := by
    decide +kernel
  obtain ⟨vm, boot, test⟩ := (Option.any_eq_true _ _).mp test
  obtain ⟨s, acts, test⟩ := (Option.any_eq_true _ _).mp test
  simp only [Bool.and_eq_true, List.isEmpty_iff, Bool.not_eq_true', decide_eq_false_iff_not] at test
  exact test.2 (claim .onZero s (reachable_boot boot acts) test.1)

end Qcvm

import Qcvm.Vm.Context

/-!
# Warnings of the interpreter

`Core::warn` records a warning, or counts it once a call has raised too many. Nothing else in the core
touches the records and the counts, so between any two cores of a run lies a number of warnings that
were recorded in order and a number that were left out (`Core.Warns`).
-/

namespace Qcvm

open Lib

/-- One more on a counter that stops at its maximum. -/
def countUp (n : Nat) : Nat := saturatingAdd n 1

/-- A counter that has not stopped counts right. -/
lemma iterate_countUp {c n : Nat} (lt : countUp^[n] c < u32Max) : countUp^[n] c = c + n := by
  induction n with
  | zero => rfl
  | succ n ih =>
    rw [Function.iterate_succ_apply'] at lt ⊢
    generalize countUp^[n] c = last at ih lt ⊢
    unfold countUp saturatingAdd at lt ⊢
    have before : last = c + n := ih (by omega)
    omega

/-- Up to its maximum a counter never falls. -/
lemma min_le_iterate_countUp (c n : Nat) : min c u32Max ≤ min (countUp^[n] c) u32Max := by
  induction n with
  | zero => exact Nat.le_refl _
  | succ n ih =>
    rw [Function.iterate_succ_apply']
    generalize countUp^[n] c = last at ih ⊢
    unfold countUp saturatingAdd
    omega

/-- Warnings so far: all that were raised, those recorded, how many were raised and left out in this
call, and how many a call may raise before they are left out. -/
structure Tally where
  limit : Nat
  raised : List Warning
  log : List Warning
  count : Nat
  suppressed : Nat

namespace Tally

/-- The warnings `ws` are raised and recorded, and `left` are raised and left out. -/
structure Raised (ws left : List Warning) (a b : Tally) : Prop where
  limit : b.limit = a.limit
  raised : ∃ all, b.raised = a.raised ++ all ∧ all.Perm (ws ++ left)
  log : b.log = a.log ++ ws
  count : b.count = countUp^[ws.length + left.length] a.count
  suppressed : b.suppressed = countUp^[left.length] a.suppressed
  few : left ≠ [] → a.limit < min b.count u32Max

/-- Some warnings are recorded and some left out. -/
def Leads (a b : Tally) : Prop := ∃ ws left, Raised ws left a b

variable {a b c : Tally}

/-- A tally leads to itself. -/
lemma Leads.refl (a : Tally) : a.Leads a :=
  ⟨[], [], rfl, ⟨[], (List.append_nil _).symm, .refl _⟩, (List.append_nil _).symm, rfl, rfl,
    fun some => absurd rfl some⟩

/-- Nothing is raised where the tally stays what it is. -/
lemma Leads.of_eq (e : b = a) : a.Leads b := by
  rw [e]
  exact .refl a

/-- Leading to a tally is transitive. -/
lemma Leads.trans (first : a.Leads b) (second : b.Leads c) : a.Leads c := by
  obtain ⟨ws, left, first⟩ := first
  obtain ⟨ws', left', second⟩ := second
  obtain ⟨all, raised, perm⟩ := first.raised
  obtain ⟨all', raised', perm'⟩ := second.raised
  refine ⟨ws ++ ws', left ++ left', second.limit.trans first.limit, ⟨all ++ all', ?_, ?_⟩, ?_, ?_, ?_,
    fun some => ?_⟩
  · rw [raised', raised, List.append_assoc]
  · refine (perm.append perm').trans ?_
    rw [List.append_assoc, List.append_assoc, ← List.append_assoc left, ← List.append_assoc ws']
    exact (List.perm_append_comm.append_right left').append_left ws
  · rw [second.log, first.log, List.append_assoc]
  · have sum : (ws ++ ws').length + (left ++ left').length
        = (ws'.length + left'.length) + (ws.length + left.length) := by
      rw [List.length_append, List.length_append]
      omega
    rw [second.count, first.count, ← Function.iterate_add_apply, sum]
  · rw [second.suppressed, first.suppressed, ← Function.iterate_add_apply, List.length_append,
      Nat.add_comm]
  · by_cases late : left' = []
    · have early : left ≠ [] := by
        rintro rfl
        exact some late
      have grows := min_le_iterate_countUp b.count (ws'.length + left'.length)
      rw [← second.count] at grows
      exact Nat.lt_of_lt_of_le (first.few early) grows
    · rw [← first.limit]
      exact second.few late

/-- It does not matter what was recorded before. -/
lemma Leads.prepend (h : a.Leads b) (log : List Warning) :
    Leads { a with log := log ++ a.log } { b with log := log ++ b.log } := by
  obtain ⟨ws, left, h⟩ := h
  refine ⟨ws, left, h.limit, h.raised, ?_, h.count, h.suppressed, h.few⟩
  show log ++ b.log = log ++ a.log ++ ws
  rw [h.log, List.append_assoc]

end Tally

namespace Core

/-- The warnings a core holds. -/
def tally (core : Core) : Tally :=
  ⟨core.config.limits.warningsPerCall, core.raised, core.warnings, core.warningsThisCall,
    core.suppressed⟩

/-- Some warnings were recorded and some left out. -/
def Warns (core core' : Core) : Prop := core.tally.Leads core'.tally

variable {core core' core'' : Core}

/-- Nothing is raised where the warnings stay what they are. -/
lemma Warns.silent (e : core'.tally = core.tally) : Warns core core' := .of_eq e

/-- A core that does nothing has raised no warning. -/
lemma Warns.refl (core : Core) : Warns core core := .silent rfl

/-- Raising some warnings and then some more is raising some warnings. -/
lemma Warns.trans (a : Warns core core') (b : Warns core' core'') : Warns core core'' := Tally.Leads.trans a b

/-- Drawing a random number raises no warning. -/
lemma warns_rng (core : Core) (rng : Rng) : Warns core { core with rng := rng } := .silent rfl

/-- A warning is recorded or left out. -/
lemma warns_warn (core : Core) (kind : WarningKind) : Warns core (core.warn kind) := by
  unfold warn
  dsimp only
  split
  next many =>
    refine ⟨[], [⟨kind, core.backtrace⟩], rfl, ⟨_, rfl, .refl _⟩, (List.append_nil _).symm, rfl, rfl,
      fun _ => ?_⟩
    unfold saturatingAdd at many
    show _ < min (saturatingAdd core.warningsThisCall 1) u32Max
    unfold saturatingAdd
    dsimp only [tally]
    omega
  next =>
    exact ⟨[⟨kind, core.backtrace⟩], [], rfl, ⟨_, rfl, .refl _⟩, rfl, rfl, rfl,
      fun some => absurd rfl some⟩

/-! ## Memory -/

/-- A bad field access raises some warnings. -/
lemma warns_badFieldAccess (core : Core) (e f : Word) : Warns core (core.badFieldAccess e f) := by
  unfold badFieldAccess
  split
  next => exact warns_warn core _
  next => exact warns_warn core _

/-- A store to a field raises some warnings. -/
lemma warns_storeField (core : Core) (e f : Word) (vs : List Word) :
    Warns core (core.storeField e f vs) := by
  unfold storeField
  split
  next => exact warns_warn core _
  next =>
    split
    next => exact warns_warn core _
    next =>
      split
      next => exact warns_warn core _
      next => exact .silent rfl

/-- Reading a string raises some warnings. -/
lemma warns_strOrWarn (core : Core) (r : Word) : Warns core (core.strOrWarn r).2 := by
  unfold strOrWarn
  split
  next => exact warns_warn core _
  next => exact .refl core

/-- A test of strings for equality raises some warnings. -/
lemma warns_stringsEqual (core : Core) (a b : Word) : Warns core (core.stringsEqual a b).2 := by
  unfold stringsEqual
  split
  next => exact .refl core
  next =>
    split
    next => exact warns_strOrWarn core _
    next => exact (warns_strOrWarn core a).trans (warns_strOrWarn _ b)

/-- A comparison of strings raises some warnings. -/
lemma warns_stringCompare (core : Core) (F : FloatOps) (ne : Bool) (a b : Word) :
    Warns core (core.stringCompare F ne a b).2 := by
  have compared := warns_stringsEqual core a b
  unfold stringCompare
  dsimp only
  split
  next => exact compared
  next =>
    split
    next => exact compared
    next => exact compared

/-- A store through a pointer raises some warnings. -/
lemma warns_ptrWrite (core : Core) (base offset : Word) (bytes : List Byte) :
    Warns core (core.ptrWrite base offset bytes).2 := by
  unfold ptrWrite
  dsimp only
  split
  next => exact .silent rfl
  next => exact warns_warn core _
  next =>
    unfold ptrWriteSlow
    split
    next => exact .refl core
    next =>
      split
      next =>
        dsimp only
        split
        next => exact .refl core
        next =>
          split
          next => exact .silent rfl
          next => exact .silent rfl
      next =>
        split
        next => exact .refl core
        next => exact .refl core

/-- A compound store through a pointer raises some warnings. -/
lemma warns_compoundPointerStore (core : Core) (F : FloatOps) (op : PointerStore) (oa ob oc : Nat) :
    Warns core (core.compoundPointerStore F op oa ob oc).2 := by
  unfold compoundPointerStore
  dsimp only
  split
  next => exact .silent rfl
  next => exact warns_warn core _
  next => exact .refl core
  next => exact .refl core

/-! ## Calls and returns -/

/-- Switching back to other progs raises no warning. -/
lemma warns_switchOut (core : Core) (src dst : Nat) : Warns core (core.switchOut src dst) := by
  unfold switchOut
  split
  next => exact .silent rfl
  next => exact .refl core

/-- Leaving a function raises no warning. -/
lemma warns_leave (core : Core) : Warns core core.leave := by
  unfold leave
  dsimp only
  split
  next => exact .silent rfl
  next frame frames _ =>
    have popped : Warns core { core.restoreLocals with
        frames := frames, x := core.restoreLocals.resumeExec frame core.restoreLocals.x.lsTop } :=
      .silent rfl
    split
    next => exact popped.trans (warns_switchOut _ _ _)
    next => exact popped

/-- Unwinding raises no warning. -/
lemma warns_unwind (core : Core) (depth : Nat) : Warns core (core.unwind depth) := by
  unfold unwind
  generalize core.frames.length - depth = n
  induction n generalizing core with
  | zero => exact .refl core
  | succ n ih => exact (warns_leave core).trans (ih core.leave)

/-- Entering a function raises no warning. -/
lemma warns_enter (core : Core) (prnum index resumePc : Nat) :
    Warns core (core.enter prnum index resumePc).2 := by
  unfold enter
  split
  next => exact .refl core
  next =>
    have switched : Warns core (if prnum ≠ core.x.prnum ∧ core.progs.length > 1 then
        core.switchIn core.x.prnum prnum else core) := by
      split
      next =>
        obtain ⟨m, same, -⟩ := switchIn_eq core core.x.prnum prnum
        rw [same]
        exact .silent rfl
      next => exact .refl core
    dsimp only
    split
    next => exact switched
    next =>
      split
      next => exact switched
      next => exact switched.trans (.silent rfl)

end Core

/-! ## Statements -/

namespace Site

open Qcvm.Core

variable {core : Core} (site : Site)

/-- Storing the loop's `pc` raises nothing. -/
lemma warns_marked {core' : Core} (pc : Nat) (a : Warns (core.markPc pc) core') : Warns core core' :=
  (Warns.silent rfl : Warns core (core.markPc pc)).trans a

/-- A store to a field, inline or not, raises some warnings. -/
lemma warns_storeField (words : Nat) : Warns core (site.storeField words core) := by
  unfold storeField
  dsimp only
  split
  next => exact .silent rfl
  next => exact warns_marked _ (Core.warns_storeField (core.markPc site.pc) _ _ _)

/-- A store through a pointer, inline or not, raises some warnings. -/
lemma warns_storeThrough (base offset : Word) (bytes : List Byte) :
    Warns core (site.storeThrough base offset bytes core).2 := by
  unfold storeThrough
  split
  next => exact .silent rfl
  next => exact warns_marked _ (warns_ptrWrite (core.markPc site.pc) base offset bytes)

/-- A load through a pointer, inline or not, raises some warnings. -/
lemma warns_loadThrough (words : Nat) (base offset : Word) :
    Warns core (site.loadThrough words base offset core).2 := by
  unfold loadThrough
  split
  next => exact .silent rfl
  next =>
    dsimp only
    split
    next => exact .silent rfl
    next => exact .silent rfl

/-- A compound store, inline or not, raises some warnings. -/
lemma warns_compound (F : FloatOps) (op : Compound) : Warns core (site.compound F op core).2 := by
  unfold compound
  dsimp only
  split
  next => exact .silent rfl
  next => exact warns_marked _ (warns_compoundPointerStore (core.markPc site.pc) F _ _ _ _)

/-- Every operation of the interpreter raises warnings as `Core::warn` does. -/
theorem handle_warns (F : FloatOps) (f : Micro) : Warns core (site.handle F f core).2 := by
  cases f with
  | get | memGet | getGlobal | getRef | look => exact .refl core
  | set | setGlobal | memSet | ptrRead | setSwitch | setPushed | setArgc =>
    exact .silent rfl
  | rand15 => exact warns_rng core _
  | warn kind => exact warns_marked _ (warns_warn _ kind)
  | badFieldAccess e f => exact warns_marked _ (warns_badFieldAccess _ e f)
  | storeField words => exact site.warns_storeField words
  | storeThrough base offset bytes => exact site.warns_storeThrough base offset bytes
  | ptrWrite base offset bytes => exact warns_marked _ (warns_ptrWrite _ base offset bytes)
  | loadThrough words base offset => exact site.warns_loadThrough words base offset
  | compound op => exact site.warns_compound F op
  | pointerStore op => exact warns_marked _ (warns_compoundPointerStore _ F op _ _ _)
  | strOrWarn r => exact warns_marked _ (warns_strOrWarn _ r)
  | stringsEqual a b => exact warns_marked _ (warns_stringsEqual _ a b)
  | stringCompare ne a b => exact warns_marked _ (warns_stringCompare _ F ne a b)
  | enter prnum index resumePc => exact warns_marked _ (warns_enter _ prnum index resumePc)
  | leave => exact warns_marked _ (warns_leave _)

end Site

/-- A core that comes after another one raises warnings as `Core::warn` does, wherever the loop goes. -/
lemma Core.upheld_warns (F : FloatOps) (core : Core) : Core.Upheld F core.Warns where
  handle site f _ h := h.trans (site.handle_warns F f)
  mark _ _ h := h.trans (.silent rfl)
  traced _ _ h := h.trans (.silent rfl)

end Qcvm

import Qcvm.Interp.Moves

/-!
# Contexts

Where QuakeC is: the registers and the saved callers. Entering a function pushes a caller that
leaving it restores, so a context remembers all contexts it was entered from. How deep it is to be
unwound and what that restores depends on nothing the running function may change.
-/

namespace Qcvm

open Lib

/-- The registers and the saved callers, innermost first. -/
structure Context where
  x : Exec
  frames : List Frame

/-- The context of a core. -/
def Core.context (core : Core) : Context := ⟨core.x, core.frames⟩

namespace Context

/-- The registers a frame restores, above which the local stack ends at `lsTop`. -/
def resume (reset : Bool) (frame : Frame) (lsTop : Nat) : Exec :=
  { pc := frame.resumePc
    func := frame.func
    prnum := frame.prnum
    pushed := frame.pushed
    lsTop := lsTop - frame.pushed
    switchRef := if reset then 0 else frame.switchRef
    switchKind := if reset then .float else frame.switchKind
    localsAddr := frame.localsAddr
    localsWords := frame.localsWords }

/-- `leave`, as far as the context goes; `reset` is `switch_reset_on_call`. -/
def leave (reset : Bool) (c : Context) : Context :=
  let top := c.x.lsTop - c.x.localsWords
  match c.frames with
  | [] => { c with x := { c.x with lsTop := top } }
  | frame :: frames => ⟨resume reset frame top, frames⟩

/-- `unwind`, as far as the context goes. -/
def unwind (reset : Bool) (depth : Nat) (c : Context) : Context :=
  (leave reset)^[c.frames.length - depth] c

variable {reset : Bool} {depth : Nat} {c c' : Context}

/-- Leaving a function takes off one frame. -/
@[simp] lemma length_leave (reset : Bool) (c : Context) :
    (c.leave reset).frames.length = c.frames.length - 1 := by
  unfold leave
  dsimp only
  split
  next e => simp [e]
  next frame frames e => simp [e]

/-- There is nothing to unwind down to a depth that is not below. -/
lemma unwind_of_le (h : c.frames.length ≤ depth) : c.unwind reset depth = c := by
  rw [unwind, Nat.sub_eq_zero_of_le h, Function.iterate_zero_apply]

/-- Unwinding starts by leaving. -/
lemma unwind_leave (h : depth < c.frames.length) :
    (c.leave reset).unwind reset depth = c.unwind reset depth := by
  rw [unwind, unwind, length_leave,
    show c.frames.length - depth = (c.frames.length - 1 - depth) + 1 by omega,
    Function.iterate_succ_apply]

/-- Unwinding comes down to its depth. -/
lemma length_unwind : (c.unwind reset depth).frames.length = min c.frames.length depth := by
  induction n : c.frames.length - depth generalizing c with
  | zero =>
    rw [unwind_of_le (by omega)]
    omega
  | succ n ih =>
    rw [← unwind_leave (by omega), ih (by rw [length_leave]; omega), length_leave]
    omega

/-- The same function runs with the same callers. -/
structure Same (c c' : Context) : Prop where
  frames : c'.frames = c.frames
  func : c'.x.func = c.x.func
  prnum : c'.x.prnum = c.x.prnum
  lsTop : c'.x.lsTop = c.x.lsTop
  localsAddr : c'.x.localsAddr = c.x.localsAddr
  localsWords : c'.x.localsWords = c.x.localsWords

/-- A context is the same as itself. -/
lemma Same.refl (c : Context) : c.Same c := ⟨rfl, rfl, rfl, rfl, rfl, rfl⟩

/-- Contexts that are the same as one are the same. -/
lemma Same.trans {c'' : Context} (a : c.Same c') (b : c'.Same c'') : c.Same c'' :=
  ⟨b.frames.trans a.frames, b.func.trans a.func, b.prnum.trans a.prnum, b.lsTop.trans a.lsTop,
    b.localsAddr.trans a.localsAddr, b.localsWords.trans a.localsWords⟩

/-- Leaving depends on the callers alone. -/
lemma Same.leave (s : c.Same c') (some : c.frames ≠ []) : c'.leave reset = c.leave reset := by
  unfold Context.leave
  dsimp only
  rw [s.frames, s.lsTop, s.localsWords]
  split
  next e => exact absurd e some
  next => rfl

/-- Unwinding does not look at what the running function may change. -/
lemma Same.unwind (s : c.Same c') (h : depth < c.frames.length) :
    c'.unwind reset depth = c.unwind reset depth := by
  have some : c.frames ≠ [] := List.ne_nil_of_length_pos (by omega)
  rw [← unwind_leave h, ← unwind_leave (by rw [s.frames]; exact h), s.leave some]

/-- The context a frame resumes: the switch starts anew where it is reset on calls. -/
def resumeAt (reset : Bool) (pc : Nat) (c : Context) : Context :=
  { c with x := { c.x with
      pc := pc
      switchRef := if reset then 0 else c.x.switchRef
      switchKind := if reset then .float else c.x.switchKind } }

end Context

namespace Core

variable {core core' : Core}

/-- Whether calls reset the switch. -/
def resets (core : Core) : Bool := core.config.compat.switchResetOnCall

/-- Switching back to other progs keeps the context. -/
lemma context_switchOut (core : Core) (src dst : Nat) :
    (core.switchOut src dst).context = core.context := by
  unfold switchOut
  split <;> rfl

/-- Leaving a function leaves its context. -/
lemma context_leave (core : Core) : core.leave.context = core.context.leave core.resets := by
  unfold leave Context.leave restoreLocals
  dsimp only [context]
  cases core.frames with
  | nil => rfl
  | cons frame frames =>
    dsimp only
    split
    next => exact context_switchOut _ _ _
    next => rfl

/-- Unwinding is a move. -/
lemma moved_unwind (core : Core) (depth : Nat) : Moved core (core.unwind depth) := by
  unfold unwind
  generalize core.frames.length - depth = n
  induction n generalizing core with
  | zero => exact .refl core
  | succ n ih => exact (moved_leave core).trans (ih core.leave)

/-- A move keeps whether calls reset the switch. -/
lemma Moved.resets (a : Moved core core') : core'.resets = core.resets :=
  congrArg (fun f : Fixed => f.config.compat.switchResetOnCall) a.fixed

/-- Unwinding unwinds the context. -/
lemma context_unwind (core : Core) (depth : Nat) :
    (core.unwind depth).context = core.context.unwind core.resets depth := by
  unfold unwind Context.unwind
  change _ = (Context.leave core.resets)^[core.frames.length - depth] core.context
  generalize core.frames.length - depth = n
  induction n generalizing core with
  | zero => rfl
  | succ n ih =>
    rw [Function.iterate_succ_apply, Function.iterate_succ_apply, ih, context_leave,
      (moved_leave core).resets]

/-! ## Entering a function -/

/-- What `enter` does when it enters function `f` of progs `ps`. -/
structure Enters (core : Core) (prnum index resumePc : Nat) (ps : ProgsState) (f : QcFunc)
    (core' : Core) : Prop where
  depth : core.frames.length < core.config.limits.callDepth
  found : core.lookupFunc prnum index = some (ps, f)
  top_le : core.x.lsTop + core.x.pushed + f.localsWords ≤ core.mem.lsWords
  /-- The locals are saved, then the parameters are copied in. -/
  mem : ∃ m m', (m = core.mem ∨ core.x.prnum ≠ prnum ∧ 1 < core.progs.length ∧
      m = (core.switchIn core.x.prnum prnum).mem) ∧
    m.moveS f.localsAddr (core.mem.lsBase + 4 * (core.x.lsTop + core.x.pushed))
      (4 * f.localsWords) = some m' ∧
    core'.mem = copyParams m' (copiesOf ps f)
  frames : core'.frames
    = core.saveFrame resumePc (core.x.lsTop + core.x.pushed) :: core.frames
  x : core'.x = ⟨f.entry, index, prnum, 0, core.x.lsTop + core.x.pushed + f.localsWords, 0, .float,
    f.localsAddr, f.localsWords⟩

/-- Switching to the progs of a callee changes region S alone. -/
lemma switchIn_eq (core : Core) (src dst : Nat) :
    ∃ m, core.switchIn src dst = { core with mem := m } ∧ core.mem.OnlyS m := by
  unfold switchIn
  split
  next => exact ⟨_, rfl, (Memory.onlyS_copyG _ _ _ _).trans (Memory.onlyS_copyPairs _ _)⟩
  next => exact ⟨core.mem, rfl, .refl _⟩

/-- Locals are saved above those there are, within the local stack. -/
lemma saveLocals_eq_some {f : QcFunc} {lsTop newTop : Nat} {m : Memory}
    (e : core.saveLocals f = some (lsTop, newTop, m)) :
    lsTop = core.x.lsTop + core.x.pushed ∧ newTop = lsTop + f.localsWords ∧
      newTop ≤ core.mem.lsWords ∧
      core.mem.moveS f.localsAddr (core.mem.lsBase + 4 * lsTop) (4 * f.localsWords) = some m := by
  unfold saveLocals at e
  obtain ⟨top, first, e⟩ := Option.bind_eq_some_iff.mp e
  obtain ⟨next, second, e⟩ := Option.bind_eq_some_iff.mp e
  obtain ⟨-, rfl⟩ := checkedAdd_eq_some.mp first
  obtain ⟨-, rfl⟩ := checkedAdd_eq_some.mp second
  dsimp only at e
  split at e
  next => cases e
  next le =>
    obtain ⟨mem, moved, e⟩ := Option.bind_eq_some_iff.mp e
    cases e
    exact ⟨rfl, rfl, Nat.le_of_not_lt le, moved⟩

/-- A function that is entered is one of its progs. -/
lemma enters {prnum index resumePc : Nat}
    (e : core.enter prnum index resumePc = (.ok (), core')) :
    ∃ ps f, core.Enters prnum index resumePc ps f core' := by
  unfold enter at e
  split at e
  next => cases e
  next depth =>
    dsimp only at e
    obtain ⟨m, switched, cause, only⟩ : ∃ m, (if prnum ≠ core.x.prnum ∧ core.progs.length > 1 then
        core.switchIn core.x.prnum prnum else core) = { core with mem := m } ∧
        (m = core.mem ∨ core.x.prnum ≠ prnum ∧ 1 < core.progs.length ∧
          m = (core.switchIn core.x.prnum prnum).mem) ∧ core.mem.OnlyS m := by
      split
      next other =>
        obtain ⟨m, same, only⟩ := switchIn_eq core core.x.prnum prnum
        exact ⟨m, same, .inr ⟨other.1.symm, other.2, by rw [same]⟩, only⟩
      next => exact ⟨core.mem, rfl, .inl rfl, .refl _⟩
    rw [switched] at e
    obtain ⟨s, -, rfl⟩ := only
    split at e
    next => cases e
    next ps f found =>
      split at e
      next => cases e
      next lsTop newTop m' saved =>
        cases e
        obtain ⟨rfl, rfl, le, moved⟩ := saveLocals_eq_some saved
        exact ⟨ps, f,
          { depth := Nat.lt_of_not_le depth
            found := found
            top_le := le
            mem := ⟨_, _, cause, moved, rfl⟩
            frames := rfl
            x := rfl }⟩

/-- Leaving a function goes back to where it was entered. -/
lemma Enters.leave {prnum index resumePc : Nat} {ps : ProgsState} {f : QcFunc} (reset : Bool)
    (e : core.Enters prnum index resumePc ps f core') :
    core'.context.leave reset = core.context.resumeAt reset resumePc := by
  unfold context Context.leave Context.resumeAt Context.resume
  rw [e.frames, e.x]
  simp only [saveFrame, Nat.add_sub_cancel]

/-- A failed `enter` leaves the context alone. -/
lemma enter_error {prnum index resumePc : Nat} {kind : ErrorKind}
    (e : core.enter prnum index resumePc = (.error kind, core')) :
    ∃ m, core' = { core with mem := m } ∧ core.mem.OnlyS m := by
  unfold enter at e
  split at e
  next =>
    cases e
    exact ⟨core.mem, rfl, .refl _⟩
  next =>
    dsimp only at e
    obtain ⟨m, switched, only⟩ : ∃ m, (if prnum ≠ core.x.prnum ∧ core.progs.length > 1 then
        core.switchIn core.x.prnum prnum else core) = { core with mem := m } ∧
        core.mem.OnlyS m := by
      split
      next => exact switchIn_eq core core.x.prnum prnum
      next => exact ⟨core.mem, rfl, .refl _⟩
    rw [switched] at e
    split at e
    next =>
      cases e
      exact ⟨m, rfl, only⟩
    next =>
      split at e
      next =>
        cases e
        exact ⟨m, rfl, only⟩
      next => cases e

end Core

end Qcvm

import Qcvm.Vm.Rules

/-!
# What the innermost call comes to

Around a run of the interpreter the VM restores registers, unwinds frames, hands warnings over and
passes results on. A relation that all of this respects (`Steady`) holds between the system before an
action of the innermost call and the one in which the call goes on, or in which it has ended and its
result is about to be delivered (`ContinuesBy`).
-/

namespace Qcvm

open Lib

/-- The code of the innermost call takes the action. -/
def Action.Inner : Action → Prop
  | .run _ _ | .finish _ | .stateDone _ => True
  | .host _ | .call _ _ | .runThreads | .reset => False

namespace Sys

/-- A relation between systems that the bookkeeping of a call respects. -/
structure Steady (F : FloatOps) (R : Sys → Sys → Prop) : Prop where
  refl : ∀ s, R s s
  trans : ∀ {s t u}, R s t → R t u → R s u
  restack : ∀ s stack, R s { s with stack := stack }
  flush : ∀ s : Sys, R s s.flush
  trace : ∀ s prnum func pc, R s (s.emit (.trace prnum func pc))
  restore : ∀ s r, R s (s.restore r)
  builtin : ∀ (s : Sys) f, R s (s.mapCore fun core => { core with builtin := f })
  aborts : ∀ (s : Sys) ret, R s (s.mapCore fun core => { core with abortRet := ret })
  unwind : ∀ (s : Sys) depth, R s (s.mapCore fun core => core.unwind depth)
  warn : ∀ (s : Sys) kind, R s (s.mapCore fun core => core.warn kind)
  ret : ∀ (s : Sys) words, R s (s.mapCore fun core => core.retRaw words)
  state : ∀ (s : Sys) op, R s (s.mapCore fun core => core.defaultStateOp F op)
  run : ∀ (s : Sys) exitDepth expires sizes, s.Base →
    R s { s with vm := (Vm.runChunks F exitDepth expires sizes s.vm).2 }

/-- The innermost call `p` goes on, or it ends and hands its result on. -/
def ContinuesBy (R : Sys → Sys → Prop) (s : Sys) (p : Pending) (rest : List Pending) (t : Sys) : Prop :=
  (R s t ∧ ∃ q : Pending, q.origin = p.origin ∧ t.stack = q :: rest) ∨
    ∃ (u : Sys) (r : Except VmError Unit), R s u ∧ u.stack = rest ∧ t = u.deliver p.origin r

namespace Steady

variable {F : FloatOps} {R : Sys → Sys → Prop} {s t u : Sys} {p : Pending} {rest : List Pending}
variable (S : Steady F R)
include S

lemma before (h : R s t) (c : ContinuesBy R t p rest u) : ContinuesBy R s p rest u := by
  rcases c with ⟨kept, q⟩ | ⟨v, r, kept, q⟩
  · exact .inl ⟨S.trans h kept, q⟩
  · exact .inr ⟨v, r, S.trans h kept, q⟩

lemma complete (s : Sys) (p : Pending) (r : Except VmError Unit) :
    ContinuesBy R s p s.stack (s.complete p r) := by
  refine .inr ⟨s.restore p.restore, r, S.restore s p.restore, ?_, rfl⟩
  unfold Sys.restore
  split
  next => rfl
  next => rfl

lemma failed (s : Sys) (p : Pending) (e : VmError) : ContinuesBy R s p s.stack (s.failed p e) :=
  S.before (S.unwind s p.exitDepth) (S.complete (s.mapCore fun core => core.unwind p.exitDepth) p _)

lemma enterBuiltin (s : Sys) (p : Pending) (slot : Nat) (func : FuncRef) :
    ContinuesBy R s p s.stack (s.enterBuiltin p slot func) := by
  unfold Sys.enterBuiltin
  split
  next => exact .inl ⟨S.trans (S.builtin s func) (S.restack _ _), { p with doing := .builtin }, rfl, rfl⟩
  next => exact S.failed s p _

lemma flowContinue (s : Sys) (p : Pending) : ContinuesBy R s p s.stack (s.flowContinue p) := by
  unfold Sys.flowContinue
  split
  next => exact .inl ⟨S.restack _ _, { p with doing := .interpreting }, rfl, rfl⟩
  next => exact S.complete s p _

lemma leaveBuiltin (s : Sys) (p : Pending) (r : Except VmError Unit) :
    ContinuesBy R s p s.stack (s.leaveBuiltin p r) := by
  unfold Sys.leaveBuiltin
  split
  next => exact S.flowContinue s p
  next =>
    split
    next ret _ =>
      have aborted := S.aborts s (some ret)
      have unwound := S.unwind (s.mapCore fun core => { core with abortRet := some ret }) p.exitDepth
      exact S.before (S.trans aborted unwound) (S.complete _ p (.ok ()))
    next msg _ _ =>
      split
      next =>
        have warned := S.warn s (.builtin msg)
        have returned := S.ret (s.mapCore fun core => core.warn (.builtin msg)) [0, 0, 0]
        exact S.before (S.trans (S.trans warned returned) (S.flush _)) (S.flowContinue _ p)
      next => exact S.failed s p _
    next => exact S.failed s p _

lemma onVerdict (s : Sys) (p : Pending) (v : Verdict) :
    ContinuesBy R s p s.stack (s.onVerdict p v) := by
  unfold Sys.onVerdict
  split
  next => exact S.before (S.flush s) (S.failed s.flush p _)
  next => exact S.before (S.flush s) (S.failed s.flush p _)
  next => exact S.before (S.flush s) (S.complete s.flush p _)
  next slot func => exact S.before (S.flush s) (S.enterBuiltin s.flush p slot func)
  next op => exact .inl ⟨S.restack _ _, { p with doing := .stateOp op }, rfl, rfl⟩
  next => exact S.before (S.flush s) (S.failed s.flush p _)
  next => exact .inl ⟨S.trans (S.trace s _ _ _) (S.restack _ _), p, rfl, rfl⟩
  next => exact .inl ⟨S.restack _ _, p, rfl, rfl⟩
  next => exact .inl ⟨S.restack _ _, p, rfl, rfl⟩

/-- So it is for every action of the innermost call. -/
theorem act {a : Action} (inner : a.Inner) (b : s.Base) (e : s.actIdleReset F a = some t) :
    ∃ p rest, s.stack = p :: rest ∧ ContinuesBy R s p rest t := by
  rw [Sys.actIdleReset_eq_some] at e
  obtain ⟨e, -⟩ := e
  unfold Sys.act at e
  split at e
  next => exact inner.elim
  next => exact inner.elim
  next => exact inner.elim
  next => exact inner.elim
  next sizes expires p rest here =>
    split at e
    next => cases e
    next =>
      cases e
      have ran := S.run s p.exitDepth expires sizes b
      exact ⟨p, rest, here, S.before (S.trans ran (S.restack _ rest)) (S.onVerdict _ p _)⟩
  next r p rest here =>
    split at e
    next =>
      cases e
      exact ⟨p, rest, here, S.before (S.restack s rest) (S.leaveBuiltin _ p r)⟩
    next => cases e
  next r p rest here =>
    split at e
    next op doing =>
      dsimp only at e
      split at e
      next =>
        cases e
        exact ⟨p, rest, here, S.before (S.restack s rest) (S.failed _ p _)⟩
      next handled =>
        cases e
        refine ⟨p, rest, here, .inl ⟨?_, { p with doing := .interpreting }, rfl, ?_⟩⟩
        · refine S.trans (S.restack s rest) (S.trans ?_ (S.restack _ _))
          split
          next => exact S.refl _
          next => exact S.state _ op
        · split
          next => rfl
          next => rfl
    next => cases e
  next => cases e

end Steady

end Sys

end Qcvm

import Mathlib.Tactic.Common

/-!
# Runs of a machine that stops

A machine takes a state to another state or stops with a result. `runFor` takes so many steps and
stays where the machine stopped. The rules are the usual ones: what a step preserves a run
preserves (`runFor_holds`), machines whose steps match have runs that match (`runFor_related`), a
measure that every step decreases bounds the steps to the stop (`exists_done_of_measure`), and a
potential that pays for some states bounds how many of them a run meets (`countFor_le`).
-/

namespace Qcvm.Lib

/-- A machine is at a state or done with a result. -/
inductive Status (σ τ : Type) where
  | running (s : σ)
  | done (t : τ)

namespace Status

variable {σ τ σ' τ' : Type} {step : σ → Status σ τ}

/-- `I` of the state or `J` of the result. -/
def Holds (I : σ → Prop) (J : τ → Prop) : Status σ τ → Prop
  | .running s => I s
  | .done t => J t

/-- The same, evaluated. -/
def test (p : σ → Bool) (q : τ → Bool) : Status σ τ → Bool
  | .running s => p s
  | .done t => q t

/-- Both machines are at related states or both are done with related results. -/
def Related (R : σ → σ' → Prop) (Q : τ → τ' → Prop) : Status σ τ → Status σ' τ' → Prop
  | .running s, .running s' => R s s'
  | .done t, .done t' => Q t t'
  | _, _ => False

/-- At most `n` steps. -/
def runFor (step : σ → Status σ τ) : Nat → Status σ τ → Status σ τ
  | 0, m => m
  | _ + 1, .done t => .done t
  | n + 1, .running s => runFor step n (step s)

@[simp] lemma runFor_zero (m : Status σ τ) : runFor step 0 m = m := by
  cases m <;> rfl

@[simp] lemma runFor_done (n : Nat) (t : τ) : runFor step n (.done t) = .done t := by
  cases n <;> rfl

lemma runFor_succ (n : Nat) (s : σ) : runFor step (n + 1) (.running s) = runFor step n (step s) := rfl

lemma runFor_add (m n : Nat) (st : Status σ τ) :
    runFor step (m + n) st = runFor step n (runFor step m st) := by
  induction m generalizing st with
  | zero => simp
  | succ m ih =>
    cases st with
    | done t => simp
    | running s =>
      rw [show m + 1 + n = (m + n) + 1 by omega, runFor_succ, runFor_succ]
      exact ih _

/-- A stopped machine stays stopped. -/
lemma runFor_of_done {m n : Nat} {st : Status σ τ} {t : τ} (e : runFor step m st = .done t)
    (le : m ≤ n) : runFor step n st = .done t := by
  obtain ⟨k, rfl⟩ := Nat.exists_eq_add_of_le le
  rw [runFor_add, e, runFor_done]

/-- What a step preserves, a run preserves. -/
theorem runFor_holds {I : σ → Prop} {J : τ → Prop} (keeps : ∀ s, I s → (step s).Holds I J) (n : Nat)
    {st : Status σ τ} (h : st.Holds I J) : (runFor step n st).Holds I J := by
  induction n generalizing st with
  | zero => simpa using h
  | succ n ih =>
    cases st with
    | done t => exact h
    | running s => exact ih (keeps s h)

/-- The states of `n` steps of a run that satisfy `p`. -/
def countFor (step : σ → Status σ τ) (p : σ → Bool) : Nat → Status σ τ → Nat
  | 0, _ => 0
  | _ + 1, .done _ => 0
  | n + 1, .running s => (if p s then 1 else 0) + countFor step p n (step s)

/-- A potential that pays for every state that counts pays for all of a run. -/
theorem countFor_le {p : σ → Bool} (φ : Status σ τ → Nat)
    (pays : ∀ s, (if p s then 1 else 0) + φ (step s) ≤ φ (.running s)) (n : Nat)
    (st : Status σ τ) : countFor step p n st + φ (runFor step n st) ≤ φ st := by
  induction n generalizing st with
  | zero => simp [countFor]
  | succ n ih =>
    cases st with
    | done t => simp [countFor]
    | running s =>
      have first := pays s
      have rest := ih (step s)
      rw [runFor_succ]
      unfold countFor
      omega

/-- Machines whose steps match have runs that match. -/
theorem runFor_related {step' : σ' → Status σ' τ'} {R : σ → σ' → Prop} {Q : τ → τ' → Prop}
    (keeps : ∀ s s', R s s' → (step s).Related R Q (step' s')) (n : Nat) {st : Status σ τ}
    {st' : Status σ' τ'} (h : st.Related R Q st') :
    (runFor step n st).Related R Q (runFor step' n st') := by
  induction n generalizing st st' with
  | zero => simpa using h
  | succ n ih =>
    cases st with
    | done t =>
      cases st' with
      | done t' => exact h
      | running s' => exact h.elim
    | running s =>
      cases st' with
      | done t' => exact h.elim
      | running s' => exact ih (keeps s s' h)

/-- A measure that every step decreases bounds the number of steps. -/
theorem exists_done_of_measure {I : σ → Prop} (μ : σ → Nat)
    (keeps : ∀ s, I s → (step s).Holds (fun s' => I s' ∧ μ s' < μ s) fun _ => True)
    {s : σ} (i : I s) : ∃ n t, n ≤ μ s + 1 ∧ runFor step n (.running s) = .done t := by
  induction h : μ s using Nat.strongRecOn generalizing s with
  | ind m ih =>
    have k := keeps s i
    cases e : step s with
    | done t => exact ⟨1, t, by omega, by rw [runFor_succ, e, runFor_zero]⟩
    | running s' =>
      rw [e] at k
      obtain ⟨n, t, le, d⟩ := ih (μ s') (h ▸ k.2) k.1 rfl
      exact ⟨n + 1, t, by have := k.2; omega, by rw [runFor_succ, e, d]⟩

end Status

end Qcvm.Lib

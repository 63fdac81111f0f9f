import Qcvm.Lib.Run

/-!
# Loops that end

A loop is a step together with a variant, a number that every turn decreases; so it can be run to
its end (`Loop.run`), and in as many turns as the variant says (`Loop.ends`). What every turn keeps
holds at the end (`Loop.run_holds`).
-/

namespace Qcvm.Lib

/-- The turns of a loop and the number that each of them decreases. -/
structure Loop (σ τ : Type) where
  step : σ → Status σ τ
  variant : σ → Nat
  decreases : ∀ {s s'}, step s = .running s' → variant s' < variant s

namespace Loop

variable {σ τ : Type} (l : Loop σ τ) {s s' : σ} {t : τ}

/-- What the loop ends with. -/
def run (s : σ) : τ :=
  match _h : l.step s with
  | .running s' => run s'
  | .done t => t
termination_by l.variant s
decreasing_by exact l.decreases _h

variable {l}

lemma run_of_running (h : l.step s = .running s') : l.run s = l.run s' := by
  rw [run]
  split
  next s'' other =>
    rw [h] at other
    cases other
    rfl
  next t other =>
    rw [h] at other
    cases other

lemma run_of_done (h : l.step s = .done t) : l.run s = t := by
  rw [run]
  split
  next s' other =>
    rw [h] at other
    cases other
  next t' other =>
    rw [h] at other
    cases other
    rfl

variable (l)

/-- The loop is at its end after as many turns as the variant allows. -/
theorem ends (s : σ) : ∃ n, n ≤ l.variant s + 1 ∧
    Status.runFor l.step n (.running s) = .done (l.run s) := by
  induction turns : l.variant s using Nat.strongRecOn generalizing s with
  | ind k ih =>
    cases e : l.step s with
    | done t =>
      refine ⟨1, Nat.le_add_left _ _, ?_⟩
      rw [Status.runFor_succ, e, run_of_done e, Status.runFor_zero]
    | running s' =>
      have less := l.decreases e
      rw [turns] at less
      obtain ⟨n, le, done⟩ := ih _ less s' rfl
      refine ⟨n + 1, by omega, ?_⟩
      rw [Status.runFor_succ, e, run_of_running e, done]

/-- What holds at the start and is kept by every turn holds at the end. -/
theorem run_holds {I : σ → Prop} {J : τ → Prop} (keeps : ∀ s, I s → (l.step s).Holds I J)
    (start : I s) : J (l.run s) := by
  obtain ⟨n, -, done⟩ := l.ends s
  have kept : (Status.runFor l.step n (.running s)).Holds I J := Status.runFor_holds keeps n start
  rw [done] at kept
  exact kept

end Loop

end Qcvm.Lib

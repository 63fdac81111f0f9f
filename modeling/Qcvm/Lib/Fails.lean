import Qcvm.Lib.Prog

/-!
# How programs fail

A program is `Total` if it never fails whatever its operations answer. What a failed run may leave
behind is said by a relation `T` between the state before, the error and the state after
(`Prog.Fails`): operations that leave the state alone may come first, and a total program may follow.
-/

namespace Qcvm.Lib.Prog

variable {F : Type} {R : F → Type} {ε α β σ : Type} {h : (f : F) → σ → R f × σ}

/-- The program ends with a value whatever its operations answer. -/
def Total : Prog R ε α → Prop
  | .pure _ => True
  | .fail _ => False
  | .call _ k => ∀ r, (k r).Total

lemma Total.bind {p : Prog R ε α} {g : α → Prog R ε β} (first : p.Total) (rest : ∀ a, (g a).Total) :
    (p.bind g).Total := by
  induction p with
  | pure a => exact rest a
  | fail e => cases first
  | call f k ih => exact fun r => ih r (first r)

lemma Total.run {p : Prog R ε α} (t : p.Total) (h : (f : F) → σ → R f × σ) (s : σ) :
    ∃ a, (p.run h s).1 = .ok a := by
  induction p generalizing s with
  | pure a => exact ⟨a, rfl⟩
  | fail e => cases t
  | call f k ih => exact ih _ (t _) _

/-- A run that fails leaves what `T` allows. -/
def Fails (h : (f : F) → σ → R f × σ) (T : σ → ε → σ → Prop) (p : Prog R ε α) : Prop :=
  ∀ s e t, p.run h s = (.error e, t) → T s e t

variable {T : σ → ε → σ → Prop}

lemma Total.fails {p : Prog R ε α} (t : p.Total) : p.Fails h T := by
  intro s e s' ran
  obtain ⟨a, ended⟩ := t.run h s
  rw [ran] at ended
  cases ended

lemma fails_fail {e : ε} (allowed : ∀ s, T s e s) : (.fail e : Prog R ε α).Fails h T := by
  intro s e' t ran
  cases ran
  exact allowed s

/-- An operation that leaves the state alone. -/
lemma fails_call {f : F} {k : R f → Prog R ε α} (reads : ∀ s, (h f s).2 = s)
    (rest : ∀ r, (k r).Fails h T) : (Prog.call f k).Fails h T := by
  intro s e t ran
  rw [run_call, reads] at ran
  exact rest _ s e t ran

/-- A result that is an error ends the program. -/
lemma fails_ofExcept {f : F} {k : R f → Except ε α}
    (allowed : ∀ s e, k (h f s).1 = .error e → T s e (h f s).2) :
    (Prog.call f fun r => .ofExcept (k r) : Prog R ε α).Fails h T := by
  intro s e t ran
  rw [run_call] at ran
  cases answer : k (h f s).1 with
  | ok a =>
    rw [answer] at ran
    cases ran
  | error e' =>
    rw [answer] at ran
    cases ran
    exact allowed s _ answer

/-- Nothing fails after the first part. -/
lemma Fails.bind {p : Prog R ε α} {g : α → Prog R ε β} (first : p.Fails h T)
    (rest : ∀ a, (g a).Total) : (p.bind g).Fails h T := by
  intro s e t ran
  rw [run_bind] at ran
  rcases ended : p.run h s with ⟨_ | a, s'⟩
  · rw [ended] at ran
    cases ran
    exact first s _ _ ended
  · rw [ended] at ran
    change (g a).run h s' = _ at ran
    obtain ⟨b, done⟩ := (rest a).run h s'
    rw [ran] at done
    cases done

/-- The first part leaves the state alone. -/
lemma Fails.after {p : Prog R ε α} {g : α → Prog R ε β} (total : p.Total)
    (reads : ∀ s, (p.run h s).2 = s) (rest : ∀ a, (g a).Fails h T) : (p.bind g).Fails h T := by
  intro s e t ran
  obtain ⟨a, ended⟩ := total.run h s
  rw [run_bind, ended, reads] at ran
  exact rest a s e t ran

end Qcvm.Lib.Prog

import Mathlib.Tactic.Common

/-!
# Programs over operations

A program is a tree of operations: it calls an operation, looks at the result and goes on, and ends
with a value or a failure. A handler gives the operations their meaning on a state. What every
operation preserves, every program preserves (`Prog.run_preserves`), and two handlers that answer
every operation alike run every program alike (`Prog.run_related`); so a fact about hundreds of
programs is proved once for each operation.
-/

namespace Qcvm.Lib

/-- A program over operations `F`, where `f` answers with an `R f`. -/
inductive Prog {F : Type} (R : F → Type) (ε α : Type) where
  | pure (a : α)
  | fail (e : ε)
  | call (f : F) (k : R f → Prog R ε α)

namespace Prog

variable {F : Type} {R : F → Type} {ε α β : Type} {σ τ : Type}

/-- Sequencing. -/
def bind : Prog R ε α → (α → Prog R ε β) → Prog R ε β
  | .pure a, g => g a
  | .fail e, _ => .fail e
  | .call f k, g => .call f fun r => (k r).bind g

instance : Monad (Prog R ε) where
  pure := .pure
  bind := .bind

/-- Continues with the value of a result, or fails with its error. -/
def ofExcept : Except ε α → Prog R ε α
  | .ok a => .pure a
  | .error e => .fail e

/-- Runs a program: the value or the failure it ends with, and the state. -/
def run (h : (f : F) → σ → R f × σ) : Prog R ε α → σ → Except ε α × σ
  | .pure a, s => (.ok a, s)
  | .fail e, s => (.error e, s)
  | .call f k, s => (k (h f s).1).run h (h f s).2

/-- Every operation the program may call satisfies `P`, and every value it may end with `Q`. -/
def All (P : F → Prop) (Q : α → Prop) : Prog R ε α → Prop
  | .pure a => Q a
  | .fail _ => True
  | .call f k => P f ∧ ∀ r, (k r).All P Q

/-- The operations a run calls, each with the state it is called in. -/
def trace (h : (f : F) → σ → R f × σ) : Prog R ε α → σ → List (F × σ)
  | .pure _, _ => []
  | .fail _, _ => []
  | .call f k, s => (f, s) :: (k (h f s).1).trace h (h f s).2

@[simp] lemma pure_eq (a : α) : (Pure.pure a : Prog R ε α) = .pure a := rfl

@[simp] lemma bind_eq (p : Prog R ε α) (g : α → Prog R ε β) : (p >>= g) = p.bind g := rfl

@[simp] lemma pure_bind (a : α) (g : α → Prog R ε β) : (Prog.pure a : Prog R ε α).bind g = g a :=
  rfl

@[simp] lemma fail_bind (e : ε) (g : α → Prog R ε β) : (Prog.fail e : Prog R ε α).bind g = .fail e :=
  rfl

@[simp] lemma call_bind (f : F) (k : R f → Prog R ε α) (g : α → Prog R ε β) :
    (Prog.call f k).bind g = .call f fun r => (k r).bind g := rfl

variable {h : (f : F) → σ → R f × σ} {h' : (f : F) → τ → R f × τ}
variable {P P' : F → Prop} {Q Q' : α → Prop}

@[simp] lemma run_pure (a : α) (s : σ) : (Prog.pure a : Prog R ε α).run h s = (.ok a, s) := rfl

@[simp] lemma run_fail (e : ε) (s : σ) : (Prog.fail e : Prog R ε α).run h s = (.error e, s) := rfl

@[simp] lemma run_call (f : F) (k : R f → Prog R ε α) (s : σ) :
    (Prog.call f k).run h s = (k (h f s).1).run h (h f s).2 := rfl

/-- A sequence runs its parts one after the other; a failure ends it. -/
lemma run_bind (p : Prog R ε α) (g : α → Prog R ε β) (s : σ) :
    (p.bind g).run h s = match (p.run h s).1 with
      | .ok a => (g a).run h (p.run h s).2
      | .error e => (.error e, (p.run h s).2) := by
  induction p generalizing s with
  | pure a => rfl
  | fail e => rfl
  | call f k ih => exact ih _ _

/-- A sequence calls what its parts call in their runs. -/
lemma trace_bind (p : Prog R ε α) (g : α → Prog R ε β) (s : σ) :
    (p.bind g).trace h s = p.trace h s ++ match (p.run h s).1 with
      | .ok a => (g a).trace h (p.run h s).2
      | .error _ => [] := by
  induction p generalizing s with
  | pure a => rfl
  | fail e => rfl
  | call f k ih => exact congrArg (List.cons (f, s)) (ih _ _)

@[simp] lemma all_pure (a : α) : (Prog.pure a : Prog R ε α).All P Q ↔ Q a := Iff.rfl

@[simp] lemma all_fail (e : ε) : (Prog.fail e : Prog R ε α).All P Q ↔ True := Iff.rfl

@[simp] lemma all_call (f : F) (k : R f → Prog R ε α) :
    (Prog.call f k).All P Q ↔ P f ∧ ∀ r, (k r).All P Q := Iff.rfl

/-- Every program satisfies what is always true. -/
lemma all_true (p : Prog R ε α) : p.All (fun _ => True) fun _ => True := by
  induction p with
  | pure => trivial
  | fail => trivial
  | call f k ih => exact ⟨trivial, ih⟩

/-- A program that satisfies properties satisfies weaker ones. -/
lemma All.mono {p : Prog R ε α} (a : p.All P Q) (hP : ∀ f, P f → P' f) (hQ : ∀ v, Q v → Q' v) :
    p.All P' Q' := by
  induction p with
  | pure v => exact hQ v a
  | fail e => trivial
  | call f k ih => exact ⟨hP f a.1, fun r => ih r (a.2 r)⟩

/-- A sequence calls what its parts call. -/
lemma All.bind {p : Prog R ε α} {g : α → Prog R ε β} {T : β → Prop} (a : p.All P Q)
    (b : ∀ v, Q v → (g v).All P T) : (p.bind g).All P T := by
  induction p with
  | pure v => exact b v a
  | fail e => trivial
  | call f k ih => exact ⟨a.1, fun r => ih r (a.2 r)⟩

/-- A program keeps what each of its operations keeps. -/
theorem run_preserves {p : Prog R ε α} {I : σ → Prop} (a : p.All P Q)
    (keeps : ∀ f s, P f → I s → I (h f s).2) {s : σ} (i : I s) : I (p.run h s).2 := by
  induction p generalizing s with
  | pure v => exact i
  | fail e => exact i
  | call f k ih => exact ih _ (a.2 _) (keeps f s a.1 i)

/-- A run calls only what the program may call, in states that its operations keep. -/
theorem of_mem_trace {p : Prog R ε α} {I : σ → Prop} (a : p.All P Q)
    (keeps : ∀ f s, I s → I (h f s).2) {s t : σ} (i : I s) {f : F} (mem : (f, t) ∈ p.trace h s) :
    P f ∧ I t := by
  induction p generalizing s with
  | pure v => cases mem
  | fail e => cases mem
  | call g k ih =>
    rcases List.mem_cons.mp mem with here | mem
    · cases here
      exact ⟨a.1, i⟩
    · exact ih _ (a.2 _) (keeps g s i) mem

/-- The value a program ends with is one it may end with. -/
theorem run_value {p : Prog R ε α} (a : p.All P Q) {s : σ} {v : α}
    (e : (p.run h s).1 = .ok v) : Q v := by
  induction p generalizing s with
  | pure w =>
    cases e
    exact a
  | fail err => cases e
  | call f k ih => exact ih _ (a.2 _) e

/-- Two handlers that answer every operation alike, and keep the states related, run a program
alike. -/
theorem run_related {p : Prog R ε α} {S : σ → τ → Prop} (a : p.All P Q)
    (alike : ∀ f s t, P f → S s t → (h f s).1 = (h' f t).1 ∧ S (h f s).2 (h' f t).2)
    {s : σ} {t : τ} (r : S s t) :
    (p.run h s).1 = (p.run h' t).1 ∧ S (p.run h s).2 (p.run h' t).2 := by
  induction p generalizing s t with
  | pure v => exact ⟨rfl, r⟩
  | fail e => exact ⟨rfl, r⟩
  | call f k ih =>
    obtain ⟨same, next⟩ := alike f s t a.1 r
    simp only [run_call]
    rw [← same]
    exact ih _ (a.2 _) next

end Prog

end Qcvm.Lib

import Mathlib.Data.List.Pairwise
import Mathlib.Tactic.Common

/-!
# Visits in ascending order

A search finds the least number after the one it starts at that satisfies a predicate, or 0. A loop
searches again from what it found, until it finds 0; the predicate may change from one search to the next.
-/

namespace Qcvm.Lib

/-- The least number after `start` that satisfies `p`, or 0 if there is none. -/
def NextAfter (p : Nat → Prop) (start found : Nat) : Prop :=
  (found = 0 ∧ ∀ x, start < x → ¬p x) ∨ (start < found ∧ p found ∧ ∀ x, start < x → x < found → ¬p x)

/-- What a loop visits: numbers that satisfied the predicate of their search, in ascending order, and every
number that satisfies all of them. -/
structure Visited (p : Nat → Nat → Prop) (e : Nat → Nat) (start : Nat) (visited : List Nat) : Prop where
  ends : e visited.length = 0
  each : ∀ i (lt : i < visited.length), e i = visited[i] ∧ p i visited[i]
  ascending : (start :: visited).Pairwise (· < ·)
  all : ∀ x, start < x → (∀ i ≤ visited.length, p i x) → x ∈ visited

/-- A loop over bounded numbers ends, whatever happens between its searches. -/
lemma exists_visited {M : Nat} {p : Nat → Nat → Prop} {e : Nat → Nat} {start : Nat}
    (first : NextAfter (p 0) start (e 0)) (next : ∀ i, e i ≠ 0 → NextAfter (p (i + 1)) (e i) (e (i + 1)))
    (bound : ∀ i x, p i x → x < M) : ∃ visited, Visited p e start visited ∧ visited.length ≤ M - start - 1 := by
  induction gap : M - start using Nat.strongRecOn generalizing p e start with
  | _ gap' ih =>
    rcases first with ⟨zero, none⟩ | ⟨lt, holds, least⟩
    · refine ⟨[], ⟨zero, fun i lt => absurd lt (Nat.not_lt_zero i), List.pairwise_singleton _ _,
        fun x lt holds => absurd (holds 0 (Nat.zero_le _)) (none x lt)⟩, Nat.zero_le _⟩
    · have inside := bound 0 (e 0) holds
      have some : e 0 ≠ 0 := Nat.ne_of_gt (Nat.lt_of_le_of_lt (Nat.zero_le _) lt)
      obtain ⟨visited, v, short⟩ := ih (M - e 0) (by omega) (p := fun i => p (i + 1))
        (e := fun i => e (i + 1)) (next 0 some) (fun i => next (i + 1)) (fun i => bound (i + 1)) rfl
      refine ⟨e 0 :: visited, ⟨v.ends, fun i inside' => ?_, ?_, fun x after holds' => ?_⟩, ?_⟩
      · cases i with
        | zero => exact ⟨rfl, holds⟩
        | succ i => exact v.each i (Nat.lt_of_succ_lt_succ inside')
      · refine List.pairwise_cons.mpr ⟨fun x mem => ?_, v.ascending⟩
        rcases List.mem_cons.mp mem with rfl | mem
        · exact lt
        · exact Nat.lt_trans lt ((List.pairwise_cons.mp v.ascending).1 x mem)
      · rcases Nat.lt_trichotomy x (e 0) with less | rfl | more
        · exact absurd (holds' 0 (Nat.zero_le _)) (least x after less)
        · exact List.mem_cons_self
        · exact List.mem_cons_of_mem _ (v.all x more fun i le => holds' (i + 1) (Nat.succ_le_succ le))
      · rw [List.length_cons]
        omega

/-- Nothing changes between the searches: every number that satisfies the predicate is visited. -/
lemma Visited.mem_iff {p : Nat → Prop} {e : Nat → Nat} {start : Nat} {visited : List Nat}
    (v : Visited (fun _ => p) e start visited) {x : Nat} : x ∈ visited ↔ start < x ∧ p x := by
  constructor
  · intro mem
    obtain ⟨i, lt, rfl⟩ := List.mem_iff_getElem.mp mem
    exact ⟨(List.pairwise_cons.mp v.ascending).1 _ mem, (v.each i lt).2⟩
  · rintro ⟨after, holds⟩
    exact v.all x after fun _ _ => holds

end Qcvm.Lib

import Mathlib.Algebra.BigOperators.Group.List.Basic
import Mathlib.Algebra.Order.Ring.Nat
import Mathlib.Tactic.Common

/-!
# Cutting an interval into pieces

A list of lengths cuts an interval into consecutive pieces. `startOf` gives the start of a piece and
`endedBy` the number of pieces that end at or before an offset. Up to the number of pieces the two
are adjoint (`startOf_le_iff`): a piece starts at or before an offset exactly when that many pieces
have ended there. When no piece is empty the second undoes the first (`endedBy_startOf`).
-/

namespace Qcvm.Lib

/-- Where piece `i` starts; the end of the last piece from the number of pieces on. -/
def startOf (lens : List Nat) (i : Nat) : Nat := (lens.take i).sum

/-- The number of pieces that end at or before `o`. -/
def endedBy : List Nat → Nat → Nat
  | [], _ => 0
  | n :: lens, o => if n ≤ o then endedBy lens (o - n) + 1 else 0

variable {lens : List Nat} {n i j o p : Nat}

@[simp] lemma startOf_zero : startOf lens 0 = 0 := rfl

@[simp] lemma startOf_nil : startOf [] i = 0 := by
  rw [startOf, List.take_nil, List.sum_nil]

@[simp] lemma startOf_cons : startOf (n :: lens) (i + 1) = n + startOf lens i := by
  rw [startOf, List.take_succ_cons, List.sum_cons]
  rfl

/-- Past the last piece stands the sum. -/
lemma startOf_of_le (h : lens.length ≤ i) : startOf lens i = lens.sum := by
  rw [startOf, List.take_of_length_le h]

/-- The pieces from `i` on start where piece `i` does. -/
lemma startOf_add : startOf lens (i + j) = startOf lens i + startOf (lens.drop i) j := by
  unfold startOf
  rw [List.take_add, List.sum_append]

/-- Pieces start in order. -/
lemma startOf_mono (h : i ≤ j) : startOf lens i ≤ startOf lens j := by
  obtain ⟨k, rfl⟩ := Nat.exists_eq_add_of_le h
  rw [startOf_add]
  exact Nat.le_add_right _ _

/-- No more pieces end than there are. -/
lemma endedBy_le_length : endedBy lens o ≤ lens.length := by
  induction lens generalizing o with
  | nil => exact le_rfl
  | cons n lens ih =>
    unfold endedBy
    split
    · exact Nat.succ_le_succ ih
    · exact Nat.zero_le _

/-- A piece starts at or before an offset exactly when that many pieces have ended there. -/
lemma startOf_le_iff (h : i ≤ lens.length) : startOf lens i ≤ o ↔ i ≤ endedBy lens o := by
  induction lens generalizing i o with
  | nil =>
    obtain rfl := Nat.le_zero.mp h
    exact ⟨fun _ => Nat.zero_le _, fun _ => Nat.zero_le _⟩
  | cons n lens ih =>
    cases i with
    | zero => exact ⟨fun _ => Nat.zero_le _, fun _ => Nat.zero_le _⟩
    | succ i =>
      rw [startOf_cons, endedBy]
      split
      next fits =>
        rw [Nat.succ_le_succ_iff, ← ih (Nat.le_of_succ_le_succ h), Nat.le_sub_iff_add_le' fits]
      next long =>
        constructor
        · intro below
          exact absurd (Nat.le_of_add_right_le below) long
        · intro none
          exact absurd none (Nat.not_succ_le_zero i)

/-- The piece after those that have ended starts no later. -/
lemma startOf_endedBy_le : startOf lens (endedBy lens o) ≤ o :=
  (startOf_le_iff endedBy_le_length).mpr le_rfl

/-- Later more pieces have ended. -/
lemma endedBy_mono (h : o ≤ p) : endedBy lens o ≤ endedBy lens p :=
  (startOf_le_iff endedBy_le_length).mp (startOf_endedBy_le.trans h)

/-- A piece that is not empty ends behind its start. -/
lemma startOf_lt_succ (pos : ∀ n ∈ lens, 0 < n) (h : i < lens.length) :
    startOf lens i < startOf lens (i + 1) := by
  have here := pos _ (List.getElem_mem h)
  rw [startOf_add, startOf, startOf, List.drop_eq_getElem_cons h, List.take_succ_cons,
    List.take_zero, List.sum_singleton]
  exact Nat.lt_add_of_pos_right here

/-- At the start of a piece exactly the pieces before it have ended. -/
lemma endedBy_startOf (pos : ∀ n ∈ lens, 0 < n) (h : i ≤ lens.length) :
    endedBy lens (startOf lens i) = i := by
  apply le_antisymm
  · by_contra more
    have before : i < endedBy lens (startOf lens i) := Nat.not_le.mp more
    have inside : i < lens.length := Nat.lt_of_lt_of_le before endedBy_le_length
    have next := (startOf_le_iff (Nat.succ_le_of_lt inside)).mpr before
    exact absurd (startOf_lt_succ pos inside) (Nat.not_lt.mpr next)
  · exact (startOf_le_iff h).mp le_rfl

/-- An offset inside the interval lies in the piece behind those that have ended. -/
lemma endedBy_contains (h : o < lens.sum) :
    endedBy lens o < lens.length ∧ o < startOf lens (endedBy lens o + 1) := by
  have inside : endedBy lens o < lens.length := by
    by_contra all
    have whole := startOf_of_le (Nat.not_lt.mp all)
    rw [← whole] at h
    exact absurd startOf_endedBy_le (Nat.not_le.mpr h)
  refine ⟨inside, ?_⟩
  by_contra ended
  have more := (startOf_le_iff (Nat.succ_le_of_lt inside)).mp (Nat.not_lt.mp ended)
  exact absurd more (Nat.not_succ_le_self _)

end Qcvm.Lib

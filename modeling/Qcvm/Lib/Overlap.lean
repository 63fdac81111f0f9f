import Mathlib.Data.List.Infix
import Mathlib.Algebra.Order.Ring.Nat
import Mathlib.Tactic.Common

/-!
# Overlaps of a pattern with the end of a text

A pattern overlaps a text by `k` when its first `k` elements end the text. An occurrence of the
pattern is an overlap by all of it, and a longer text has the overlaps that its last element
continues (`overlaps_snoc`). The shorter overlaps of a text are the overlaps of the pattern with its
own beginning, less the first element (`Overlaps.below`), which is what a failure table lists: a
search that falls back along the table meets every overlap, the longest first.
-/

namespace Qcvm.Lib

variable {α : Type} {p t s : List α} {c : α} {i j k : Nat}

/-- The pattern occurs in the text behind its first `i` elements. -/
def OccursAt (p s : List α) (i : Nat) : Prop := ∃ pre post, s = pre ++ p ++ post ∧ pre.length = i

/-- The first `k` elements of the pattern end the text. -/
def Overlaps (p t : List α) (k : Nat) : Prop := k ≤ p.length ∧ p.take k <:+ t

/-- The longest overlap of the pattern with the end of the text. -/
structure Longest (p t : List α) (k : Nat) : Prop where
  overlaps : Overlaps p t k
  longest : ∀ j, Overlaps p t j → j ≤ k

lemma overlaps_zero : Overlaps p t 0 := ⟨Nat.zero_le _, List.nil_suffix⟩

lemma Overlaps.le (h : Overlaps p t k) : k ≤ t.length := by
  have short := h.2.length_le
  rwa [List.length_take, Nat.min_eq_left h.1] at short

/-- The last element of a text continues an overlap. -/
lemma overlaps_snoc : Overlaps p (t ++ [c]) (k + 1) ↔ Overlaps p t k ∧ p[k]? = some c := by
  constructor
  · rintro ⟨bound, pre, split⟩
    rw [List.take_add_one, List.getElem?_eq_getElem bound, Option.toList_some,
      ← List.append_assoc] at split
    obtain ⟨front, last⟩ := List.append_inj' split rfl
    refine ⟨⟨Nat.le_of_succ_le bound, pre, front⟩, ?_⟩
    rw [List.getElem?_eq_getElem bound, List.singleton_inj.mp last]
  · rintro ⟨⟨-, pre, split⟩, here⟩
    obtain ⟨bound, same⟩ := List.getElem?_eq_some_iff.mp here
    refine ⟨bound, pre, ?_⟩
    rw [List.take_add_one, here, Option.toList_some, ← List.append_assoc, split]

/-- The overlaps below an overlap are those of the pattern with its own beginning. -/
lemma Overlaps.below (h : Overlaps p t k) (lt : j < k) :
    Overlaps p t j ↔ Overlaps p (p.take k).tail j := by
  have long : (p.take k).length = k := by rw [List.length_take, Nat.min_eq_left h.1]
  have tail : (p.take k).tail <:+ p.take k := List.tail_suffix _
  constructor
  · rintro ⟨bound, ends⟩
    refine ⟨bound, ?_⟩
    apply List.suffix_of_suffix_length_le ends (tail.trans h.2)
    rw [List.length_take, List.length_tail, long, Nat.min_eq_left bound]
    exact Nat.le_pred_of_lt lt
  · rintro ⟨bound, ends⟩
    exact ⟨bound, ends.trans (tail.trans h.2)⟩

/-- An occurrence that ends with the text is an overlap by the whole pattern. -/
lemma overlaps_length : Overlaps p t p.length ↔ p <:+ t := by
  unfold Overlaps
  rw [List.take_length]
  exact and_iff_right le_rfl

lemma OccursAt.le (h : OccursAt p s i) : i + p.length ≤ s.length := by
  obtain ⟨pre, post, rfl, rfl⟩ := h
  rw [List.length_append, List.length_append]
  exact Nat.le_add_right _ _

/-- The pattern ends a beginning of the text exactly where it occurs. -/
lemma occursAt_of_suffix {rest : List α} (h : p <:+ t) :
    OccursAt p (t ++ rest) (t.length - p.length) := by
  obtain ⟨pre, rfl⟩ := h
  refine ⟨pre, rest, rfl, ?_⟩
  rw [List.length_append, Nat.add_sub_cancel]

lemma OccursAt.suffix {rest : List α} (h : OccursAt p (t ++ rest) i)
    (stop : i + p.length = t.length) : p <:+ t := by
  obtain ⟨pre, post, split, rfl⟩ := h
  refine ⟨pre, ?_⟩
  refine (List.append_inj split ?_).1.symm
  rw [List.length_append, stop]

/-- The longest overlap after one more element, from the longest that the element continues. -/
lemma Longest.snoc_of_continued (h : Overlaps p t k) (here : p[k]? = some c)
    (most : ∀ j, Overlaps p t j → p[j]? = some c → j ≤ k) : Longest p (t ++ [c]) (k + 1) where
  overlaps := overlaps_snoc.mpr ⟨h, here⟩
  longest j overlap := by
    cases j with
    | zero => exact Nat.zero_le _
    | succ j =>
      obtain ⟨before, next⟩ := overlaps_snoc.mp overlap
      exact Nat.succ_le_succ (most j before next)

/-- After an element that continues no overlap there is none. -/
lemma Longest.snoc_of_none (none : ∀ j, Overlaps p t j → p[j]? ≠ some c) :
    Longest p (t ++ [c]) 0 where
  overlaps := overlaps_zero
  longest j overlap := by
    cases j with
    | zero => exact le_rfl
    | succ j =>
      obtain ⟨before, next⟩ := overlaps_snoc.mp overlap
      exact absurd next (none j before)

end Qcvm.Lib

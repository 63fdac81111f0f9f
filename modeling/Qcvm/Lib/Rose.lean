import Mathlib.Data.List.Range
import Mathlib.Tactic.Common
import Mathlib.Algebra.BigOperators.Group.List.Basic
import Mathlib.Algebra.GroupWithZero.Nat

/-!
# Trees laid out in slots

A tree whose nodes have any number of children, and the slots that its nodes take when the children
of every node stand next to each other: a node takes the slots of its children together, then each
child does, in order (`places`). The places come in preorder; their slots are the slot of the root
and the next ones, each once (`slots_places`).
-/

namespace Qcvm.Lib

/-- A tree with labels. -/
inductive Rose (α : Type) where
  | node (label : α) (children : List (Rose α))

/-- A node in its slot, with the first slot and the number of its children. -/
structure Place (α : Type) where
  label : α
  slot : Nat
  first : Nat
  count : Nat

namespace Rose

variable {α β : Type}

/-- What holds of a node if it holds of its children, one after the other, holds of every tree. -/
theorem induct {P : Rose α → Prop} {Q : List (Rose α) → Prop}
    (node : ∀ a ts, Q ts → P (.node a ts)) (nil : Q []) (cons : ∀ t ts, P t → Q ts → Q (t :: ts)) :
    (∀ t, P t) ∧ ∀ ts, Q ts := by
  have trees : ∀ t, P t := @Rose.rec α P Q node nil cons
  refine ⟨trees, fun ts => ?_⟩
  induction ts with
  | nil => exact nil
  | cons t ts ih => exact cons t ts (trees t) ih

mutual

/-- The labels in preorder, each with the number of its children. -/
def preorder : Rose α → List (α × Nat)
  | node a ts => (a, ts.length) :: preorderAll ts

/-- The labels of trees, one tree after the other. -/
def preorderAll : List (Rose α) → List (α × Nat)
  | [] => []
  | t :: ts => t.preorder ++ preorderAll ts

end

mutual

/-- The number of nodes below the root. -/
def beneath : Rose α → Nat
  | node _ ts => ts.length + beneathAll ts

/-- The number of nodes below the roots. -/
def beneathAll : List (Rose α) → Nat
  | [] => 0
  | t :: ts => t.beneath + beneathAll ts

end

mutual

/-- The places of the nodes in preorder, when the root is in `slot` and the slots from `next` on are
free. -/
def places (slot next : Nat) : Rose α → List (Place α)
  | node a ts => ⟨a, slot, next, ts.length⟩ :: placesAll next (next + ts.length) ts

/-- The places of the nodes of trees whose roots are in the slots from `slot` on. -/
def placesAll (slot next : Nat) : List (Rose α) → List (Place α)
  | [] => []
  | t :: ts => t.places slot next ++ placesAll (slot + 1) (next + t.beneath) ts

end

/-- The places are the nodes in preorder. -/
lemma map_places (f : α → Nat → β) (t : Rose α) : ∀ slot next,
    (t.places slot next).map (fun p => f p.label p.count) = t.preorder.map fun p => f p.1 p.2 := by
  refine (induct (P := fun t => ∀ slot next, (t.places slot next).map (fun p => f p.label p.count) =
      t.preorder.map fun p => f p.1 p.2)
    (Q := fun ts => ∀ slot next, (placesAll slot next ts).map (fun p => f p.label p.count) =
      (preorderAll ts).map fun p => f p.1 p.2) ?_ ?_ ?_).1 t
  · intro a ts ih slot next
    rw [places, preorder, List.map_cons, List.map_cons, ih]
  · intro slot next
    rfl
  · intro t ts first rest slot next
    rw [placesAll, preorderAll, List.map_append, List.map_append, first, rest]

lemma length_places (t : Rose α) (slot next : Nat) :
    (t.places slot next).length = t.preorder.length := by
  have same := congrArg List.length (map_places (fun _ _ => ()) t slot next)
  simpa using same

/-- The slots taken are that of the root and the next ones. -/
lemma slots_places (t : Rose α) (slot next : Nat) :
    ((t.places slot next).map Place.slot).Perm (slot :: List.range' next t.beneath) := by
  refine (induct
    (P := fun t => ∀ slot next, ((t.places slot next).map Place.slot).Perm
      (slot :: List.range' next t.beneath))
    (Q := fun ts => ∀ slot next, ((placesAll slot next ts).map Place.slot).Perm
      (List.range' slot ts.length ++ List.range' next (beneathAll ts))) ?_ ?_ ?_).1 t slot next
  · intro a ts ih slot next
    rw [places, beneath, List.map_cons, List.range'_append_1.symm]
    exact (ih next (next + ts.length)).cons slot
  · intro slot next
    exact List.Perm.refl _
  · intro t ts first rest slot next
    rw [placesAll, beneathAll, List.map_append, List.length_cons, List.range'_succ,
      List.range'_append_1.symm]
    refine ((first slot next).append (rest (slot + 1) (next + t.beneath))).trans ?_
    rw [List.cons_append, List.cons_append, ← List.append_assoc, ← List.append_assoc]
    exact (List.perm_append_comm.append_right _).cons slot

/-- The slots of the children are among those taken. -/
lemma first_le_places (t : Rose α) : ∀ {slot next p}, p ∈ t.places slot next →
    p.first + p.count ≤ next + t.beneath := by
  refine (induct (P := fun t => ∀ {slot next p}, p ∈ t.places slot next →
      p.first + p.count ≤ next + t.beneath)
    (Q := fun ts => ∀ {slot next p}, p ∈ placesAll slot next ts →
      p.first + p.count ≤ next + beneathAll ts) ?_ ?_ ?_).1 t
  · intro a ts ih slot next p mem
    rw [beneath]
    rcases List.mem_cons.mp mem with rfl | mem
    · exact Nat.add_le_add_left (Nat.le_add_right _ _) next
    · exact (ih mem).trans (Nat.le_of_eq (Nat.add_assoc _ _ _))
  · intro slot next p mem
    cases mem
  · intro t ts first rest slot next p mem
    rw [beneathAll]
    rcases List.mem_append.mp mem with mem | mem
    · exact (first mem).trans (Nat.add_le_add_left (Nat.le_add_right _ _) next)
    · exact (rest mem).trans (Nat.le_of_eq (Nat.add_assoc _ _ _))

lemma length_preorder (t : Rose α) : t.preorder.length = t.beneath + 1 := by
  have perm := (t.slots_places 0 0).length_eq
  rw [List.length_map, length_places, List.length_cons, List.length_range'] at perm
  exact perm

end Rose

end Qcvm.Lib

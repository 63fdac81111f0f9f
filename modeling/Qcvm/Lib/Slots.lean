import Mathlib.Tactic.Common
import Mathlib.Algebra.Order.Ring.Nat

/-!
# Slot tables

A list of optional values whose indices are handles: a new value takes the first free slot or a new
one at the end, and a slot is emptied when its value goes. `weight` adds up a measure of the values;
each operation changes it by the measure of the values that come and go.
-/

namespace Qcvm.Lib.Slots

variable {α : Type}

/-- The value in slot `i`. -/
def get (slots : List (Option α)) (i : Nat) : Option α := slots[i]?.join

/-- The slot a new value takes. -/
def free (slots : List (Option α)) : Nat := (slots.findIdx? Option.isNone).getD slots.length

/-- A new value takes the first free slot, or a new one. -/
def occupy (slots : List (Option α)) (a : α) : List (Option α) :=
  if free slots < slots.length then slots.set (free slots) (some a) else slots ++ [some a]

/-- The number of values. -/
def live (slots : List (Option α)) : Nat := slots.countP Option.isSome

/-- The sum of a measure over the values. -/
def weight (f : α → Nat) (slots : List (Option α)) : Nat := (slots.map fun o => o.elim 0 f).sum

/-- `P` holds of every value. -/
def Each (P : α → Prop) (slots : List (Option α)) : Prop := ∀ i a, get slots i = some a → P a

section Basic

variable {f : α → Nat} {P : α → Prop} {slots : List (Option α)} {i : Nat} {a b : α} {o : Option α}

/-- A slot has a value exactly if the value stands there. -/
lemma get_eq_some : get slots i = some a ↔ slots[i]? = some (some a) := by
  simp [get, Option.join_eq_some_iff]

@[simp] lemma weight_nil : weight f [] = 0 := rfl

@[simp] lemma weight_cons : weight f (o :: slots) = o.elim 0 f + weight f slots := by
  simp [weight]

/-- Slots in sequence weigh the sum. -/
lemma weight_append {more : List (Option α)} :
    weight f (slots ++ more) = weight f slots + weight f more := by
  simp [weight]

/-- Full slots weigh the sum of their values. -/
lemma weight_map_some {l : List α} : weight f (l.map some) = (l.map f).sum := by
  unfold weight
  rw [List.map_map]
  rfl

/-- The holes weigh nothing. -/
lemma sum_filterMap : ((slots.filterMap id).map f).sum = weight f slots := by
  induction slots with
  | nil => rfl
  | cons o slots ih =>
    cases o with
    | none => simpa using ih
    | some a => simpa using ih

/-- A slot's value comes and goes in the sum. -/
lemma weight_set (h : i < slots.length) :
    weight f (slots.set i o) + (get slots i).elim 0 f = weight f slots + o.elim 0 f := by
  induction slots generalizing i with
  | nil => exact absurd h (Nat.not_lt_zero i)
  | cons head tail ih =>
    cases i with
    | zero =>
      simp only [List.set_cons_zero, weight_cons, get, List.getElem?_cons_zero, Option.join_some]
      omega
    | succ i =>
      have rest := ih (Nat.lt_of_succ_lt_succ h)
      simp only [List.set_cons_succ, weight_cons, get, List.getElem?_cons_succ] at rest ⊢
      omega

/-- A slot with a value is one of the slots. -/
lemma lt_of_get (h : get slots i = some a) : i < slots.length := by
  obtain ⟨bound, -⟩ := List.getElem?_eq_some_iff.mp (get_eq_some.mp h)
  exact bound

/-- Replacing a value exchanges its weight. -/
lemma weight_replace (h : get slots i = some a) :
    weight f (slots.set i (some b)) + f a = weight f slots + f b := by
  have moved := weight_set (f := f) (o := some b) (lt_of_get h)
  rwa [h] at moved

/-- Emptying a slot takes its weight off. -/
lemma weight_empty (h : get slots i = some a) :
    weight f (slots.set i none) + f a = weight f slots := by
  have moved := weight_set (f := f) (o := none) (lt_of_get h)
  rwa [h] at moved

/-- A value's measure is part of the sum. -/
lemma le_weight (h : get slots i = some a) : f a ≤ weight f slots := by
  have moved := weight_empty (f := f) h
  omega

/-- The slot a new value takes is empty. -/
lemma free_empty (h : free slots < slots.length) : get slots (free slots) = none := by
  unfold free at h ⊢
  cases found : slots.findIdx? Option.isNone with
  | none =>
    rw [found] at h
    exact absurd h (lt_irrefl _)
  | some k =>
    obtain ⟨bound, none, -⟩ := List.findIdx?_eq_some_iff_getElem.mp found
    rw [Option.isNone_iff_eq_none] at none
    simp [get, List.getElem?_eq_getElem bound, none]

/-- A new value adds its weight. -/
lemma weight_occupy : weight f (occupy slots a) = weight f slots + f a := by
  unfold occupy
  split
  next h =>
    have moved := weight_set (f := f) (o := some a) h
    rwa [free_empty h] at moved
  next h => simp [weight_append]

/-- A value after setting a slot is the new one or an old one. -/
lemma get_set {j : Nat} (h : get (slots.set i o) j = some a) :
    o = some a ∨ get slots j = some a := by
  rw [get_eq_some, List.getElem?_set] at h
  split_ifs at h with same bound
  · exact Or.inl (Option.some.inj h)
  · exact Or.inr (get_eq_some.mpr h)

/-- A property of every value survives setting one that has it. -/
lemma Each.set (each : Each P slots) (h : ∀ a, o = some a → P a) : Each P (slots.set i o) := by
  intro j a here
  cases get_set here with
  | inl same => exact h a same
  | inr old => exact each j a old

/-- A property of every value survives emptying a slot. -/
lemma Each.clear (each : Each P slots) : Each P (slots.set i none) := by
  apply each.set
  rintro a ⟨⟩

/-- A property of every value survives a new one that has it. -/
lemma Each.occupy (each : Each P slots) (h : P a) : Each P (occupy slots a) := by
  unfold Slots.occupy
  split
  · exact each.set fun b same => Option.some.inj same ▸ h
  · intro j b here
    rw [get_eq_some, List.getElem?_append] at here
    split_ifs at here with inside
    · exact each j b (get_eq_some.mpr here)
    · rw [List.getElem?_singleton] at here
      split_ifs at here with last
      cases here
      exact h

end Basic

end Qcvm.Lib.Slots

import Qcvm.Lib.Arr

/-!
# Where elements come from

A sequence of copies within an array puts at every index an element that was somewhere before, or
the default one. A `Flow` says where, without looking at the elements: flows compose
(`Follows.andThen`), so what is at an index after many copies is one element of the array before
them.
-/

namespace Qcvm.Lib

/-- The index an element comes from; `none` for the default element. -/
abbrev Flow := Nat → Option Nat

namespace Flow

/-- Nothing moves. -/
def stay : Flow := some

/-- One flow after another. -/
def andThen (f g : Flow) : Flow := fun i => (g i).bind f

/-- `n` elements are copied from `src` to `dst` in an array of `size` elements: nothing is written
out of range, and what is read out of range is the default. -/
def copy (size src dst n : Nat) : Flow := fun i =>
  if dst + n ≤ size ∧ dst ≤ i ∧ i < dst + n then
    if src + n ≤ size then some (src + (i - dst)) else none
  else some i

/-- One flow after another for every item. -/
def all {β : Type} (flow : β → Flow) (items : List β) : Flow :=
  items.foldl (fun f b => f.andThen (flow b)) stay

lemma stay_andThen (f : Flow) : stay.andThen f = f := by
  funext i
  exact Option.bind_fun_some _

lemma andThen_assoc (f g h : Flow) : (f.andThen g).andThen h = f.andThen (g.andThen h) := by
  funext i
  exact (Option.bind_assoc (h i) g f).symm

lemma all_cons {β : Type} (flow : β → Flow) (b : β) (items : List β) :
    all flow (b :: items) = (flow b).andThen (all flow items) := by
  have from' (f : Flow) :
      items.foldl (fun f b => f.andThen (flow b)) f = f.andThen (all flow items) := by
    unfold all
    induction items generalizing f with
    | nil => rfl
    | cons c rest ih =>
      rw [List.foldl_cons, List.foldl_cons, ih, ih (stay.andThen (flow c)), stay_andThen,
        andThen_assoc]
  unfold all
  rw [List.foldl_cons, stay_andThen, from']
  rfl

lemma all_append {β : Type} (flow : β → Flow) (items : List β) (b : β) :
    all flow (items ++ [b]) = (all flow items).andThen (flow b) := by
  unfold all
  rw [List.foldl_append]
  rfl

/-- Flows that leave an index alone. -/
lemma all_of_stay {β : Type} {flow : β → Flow} {items : List β} {i : Nat}
    (still : ∀ b ∈ items, flow b i = some i) : all flow items i = some i := by
  induction items with
  | nil => rfl
  | cons b rest ih =>
    rw [all_cons]
    unfold andThen
    rw [ih fun c mem => still c (List.mem_cons_of_mem b mem)]
    exact still b List.mem_cons_self

/-- A copy moves nothing outside its destination. -/
lemma copy_of_outside {size src dst n i : Nat} (out : i < dst ∨ dst + n ≤ i) :
    copy size src dst n i = some i := if_neg (by omega)

lemma copy_of_inside {size src dst n i : Nat} (fits : dst + n ≤ size) (from' : src + n ≤ size)
    (lo : dst ≤ i) (hi : i < dst + n) : copy size src dst n i = some (src + (i - dst)) := by
  unfold copy
  rw [if_pos ⟨fits, lo, hi⟩, if_pos from']

end Flow

namespace Arr

variable {α : Type} [Inhabited α]

/-- The elements of `b` are those of `a` where the flow says. -/
structure Follows (f : Flow) (a b : Arr α) : Prop where
  size : b.size = a.size
  get : ∀ i, b.get i = ((f i).map a.get).getD default

variable {a b c : Arr α} {f g : Flow}

lemma Follows.refl (a : Arr α) : Follows .stay a a := ⟨rfl, fun _ => rfl⟩

lemma Follows.andThen (h : Follows f a b) (k : Follows g b c) : Follows (f.andThen g) a c where
  size := k.size.trans h.size
  get i := by
    rw [k.get]
    unfold Flow.andThen
    cases g i with
    | none => rfl
    | some j => exact h.get j

/-- An element that comes from an index. -/
lemma Follows.get_of {i j : Nat} (h : Follows f a b) (from' : f i = some j) :
    b.get i = a.get j := by
  rw [h.get, from']
  rfl

/-- What a step for every item does, a fold of the steps does. -/
lemma Follows.foldl {σ β : Type} (data : σ → Arr α) {step : σ → β → σ} {flow : β → Flow} {n : Nat}
    (each : ∀ s b, (data s).size = n → Follows (flow b) (data s) (data (step s b))) (items : List β)
    {s : σ} (size : (data s).size = n) :
    Follows (.all flow items) (data s) (data (items.foldl step s)) := by
  induction items generalizing s with
  | nil => exact .refl _
  | cons b rest ih =>
    have first := each s b size
    rw [Flow.all_cons]
    exact first.andThen (ih (first.size.trans size))

end Arr

end Qcvm.Lib

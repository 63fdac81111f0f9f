import Mathlib.Algebra.Order.Ring.Nat
import Mathlib.Data.List.GetD
import Mathlib.Tactic.Common

/-!
# Arrays

Growable arrays as a size and a total function that is `default` from the size on. Two arrays with
the same size and the same elements are equal (`Arr.ext`), and an update is described by what it
does at every index (`Arr.get_write`, `Arr.get_copyWithin`, `Arr.get_resize`), so a frame property
is one case split and linear arithmetic.
-/

namespace Qcvm.Lib

/-- An element of a list of records of one length, laid end to end. -/
lemma getD_flatMap {α β : Type} {f : α → List β} {n : Nat} (len : ∀ a, (f a).length = n) {l : List α}
    {k i : Nat} (d : α) (e : β) (hk : k < l.length) (hi : i < n) :
    (l.flatMap f).getD (n * k + i) e = (f (l.getD k d)).getD i e := by
  induction l generalizing k with
  | nil => simp at hk
  | cons a l ih =>
    rw [List.flatMap_cons]
    cases k with
    | zero =>
      rw [List.getD_append _ _ _ _ (by rw [len]; omega), Nat.mul_zero, Nat.zero_add,
        List.getD_cons_zero]
    | succ k =>
      rw [List.getD_append_right _ _ _ _ (by rw [len, Nat.mul_succ]; omega), len,
        show n * (k + 1) + i - n = n * k + i by rw [Nat.mul_succ]; omega,
        ih (by simpa using hk), List.getD_cons_succ]

/-- Parts of one length add up. -/
lemma length_flatMap_of_length {α β : Type} {f : α → List β} {n : Nat} (len : ∀ a, (f a).length = n)
    (l : List α) : (l.flatMap f).length = n * l.length := by
  induction l with
  | nil => rfl
  | cons a l ih =>
    rw [List.flatMap_cons, List.length_append, len, ih, List.length_cons, Nat.mul_succ]
    omega

/-- A finite array of `size` elements, `default` past its end. -/
structure Arr (α : Type) [Inhabited α] where
  size : Nat
  get : Nat → α
  past : ∀ i, size ≤ i → get i = default

namespace Arr

variable {α β : Type} [Inhabited α] [Inhabited β]

/-- Arrays of one size with the same elements are equal. -/
@[ext]
lemma ext {a b : Arr α} (size : a.size = b.size) (get : ∀ i, i < a.size → a.get i = b.get i) :
    a = b := by
  cases a with
  | mk n f pf =>
    cases b with
    | mk m g pg =>
      dsimp only at size get
      subst size
      have e : f = g := by
        funext i
        by_cases h : i < n
        · exact get i h
        · rw [pf i (by omega), pg i (by omega)]
      subst e
      rfl

/-- The first `n` values of `f`. -/
def tabulate (n : Nat) (f : Nat → α) : Arr α where
  size := n
  get i := if i < n then f i else default
  past i h := if_neg (by omega)

@[simp] lemma size_tabulate (n : Nat) (f : Nat → α) : (tabulate n f).size = n := rfl

/-- The elements of a tabulated array. -/
lemma get_tabulate {n i : Nat} (f : Nat → α) (h : i < n) : (tabulate n f).get i = f i :=
  if_pos h

/-- The empty array. -/
def empty : Arr α := tabulate 0 fun _ => default

@[simp] lemma size_empty : (empty : Arr α).size = 0 := rfl

/-- The elements of a list. -/
def ofList (l : List α) : Arr α := tabulate l.length fun i => l.getD i default

@[simp] lemma size_ofList (l : List α) : (ofList l).size = l.length := rfl

/-- The element at `i`, if there is one. -/
def get? (a : Arr α) (i : Nat) : Option α := if i < a.size then some (a.get i) else none

/-- There is an element exactly at the indices below the size. -/
lemma get?_eq_some {a : Arr α} {i : Nat} {x : α} :
    a.get? i = some x ↔ i < a.size ∧ a.get i = x := by
  unfold get?
  split
  next h => simp [h]
  next h => simp [h]

/-- There is no element exactly from the size on. -/
lemma get?_eq_none {a : Arr α} {i : Nat} : a.get? i = none ↔ a.size ≤ i := by
  unfold get?
  split <;> simp <;> omega

/-- The `n` elements from `off` on (`default` past the end). -/
def slice (a : Arr α) (off n : Nat) : List α := (List.range n).map fun i => a.get (off + i)

@[simp] lemma length_slice (a : Arr α) (off n : Nat) : (a.slice off n).length = n := by
  simp [slice]

/-- The elements of a slice are those from its offset on. -/
lemma getD_slice (a : Arr α) {off n i : Nat} (h : i < n) :
    (a.slice off n).getD i default = a.get (off + i) := by
  simp [slice, List.getD, h]

/-- The `n` elements from `off` on as an array. -/
def extract (a : Arr α) (off n : Nat) : Arr α := tabulate n fun i => a.get (off + i)

@[simp] lemma size_extract (a : Arr α) (off n : Nat) : (a.extract off n).size = n := rfl

/-- Writes a block at `off`, if it fits. -/
def write (a : Arr α) (off : Nat) (l : List α) : Arr α where
  size := a.size
  get i :=
    if off + l.length ≤ a.size ∧ off ≤ i ∧ i < off + l.length then l.getD (i - off) default
    else a.get i
  past i h := by
    rw [if_neg (by omega)]
    exact a.past i h

@[simp] lemma size_write (a : Arr α) (off : Nat) (l : List α) : (a.write off l).size = a.size :=
  rfl

/-- The elements after a write: the block within it, and the old ones elsewhere. -/
lemma get_write (a : Arr α) (off : Nat) (l : List α) (i : Nat) :
    (a.write off l).get i =
      if off + l.length ≤ a.size ∧ off ≤ i ∧ i < off + l.length then l.getD (i - off) default
      else a.get i := rfl

/-- Within a write that fits stands the block. -/
lemma get_write_of_inside {a : Arr α} {off : Nat} {l : List α} {i : Nat}
    (fits : off + l.length ≤ a.size) (lo : off ≤ i) (hi : i < off + l.length) :
    (a.write off l).get i = l.getD (i - off) default := by
  rw [get_write, if_pos ⟨fits, lo, hi⟩]

/-- Outside of a write the elements are kept. -/
lemma get_write_of_outside {a : Arr α} {off : Nat} {l : List α} {i : Nat}
    (h : i < off ∨ off + l.length ≤ i) : (a.write off l).get i = a.get i := by
  rw [get_write, if_neg (by omega)]

/-- A slice depends on its own elements alone. -/
lemma slice_congr {a b : Arr α} {off n : Nat}
    (same : ∀ i, off ≤ i → i < off + n → a.get i = b.get i) : a.slice off n = b.slice off n := by
  unfold slice
  refine List.map_congr_left fun i mem => ?_
  exact same _ (Nat.le_add_right _ _) (Nat.add_lt_add_left (List.mem_range.mp mem) off)

/-- A block that was written reads as it is. -/
lemma slice_write {a : Arr α} {off : Nat} {l : List α} (fits : off + l.length ≤ a.size) :
    (a.write off l).slice off l.length = l := by
  refine List.ext_getElem (length_slice _ _ _) fun i lt lt' => ?_
  have written := get_write_of_inside (a := a) fits (Nat.le_add_right off i) (by omega)
  rw [Nat.add_sub_cancel_left, List.getD_eq_getElem _ _ lt'] at written
  simp only [slice, List.getElem_map, List.getElem_range]
  exact written

/-- A write that does not fit changes nothing. -/
lemma write_of_out_of_range {a : Arr α} {off : Nat} {l : List α} (h : a.size < off + l.length) :
    a.write off l = a := by
  ext i
  · rfl
  · rw [get_write, if_neg (by omega)]

/-- Writing a block is writing its two parts, when both fit. -/
lemma write_append {a : Arr α} {off : Nat} {l r : List α}
    (h : off + l.length + r.length ≤ a.size) :
    a.write off (l ++ r) = (a.write off l).write (off + l.length) r := by
  have len : (l ++ r).length = l.length + r.length := List.length_append
  ext i
  · rfl
  · rcases Nat.lt_or_ge i off with lo | lo
    · rw [get_write_of_outside (by omega), get_write_of_outside (by omega),
        get_write_of_outside (by omega)]
    · rcases Nat.lt_or_ge i (off + l.length) with mid | mid
      · rw [get_write_of_inside (by omega) lo (by omega), get_write_of_outside (by omega),
          get_write_of_inside (by omega) lo mid, List.getD_append _ _ _ _ (by omega)]
      · rcases Nat.lt_or_ge i (off + l.length + r.length) with up | up
        · rw [get_write_of_inside (by omega) lo (by omega),
            get_write_of_inside (by rw [size_write]; omega) mid up,
            List.getD_append_right _ _ _ _ (by omega), Nat.sub_sub]
        · rw [get_write_of_outside (by omega), get_write_of_outside (by omega),
            get_write_of_outside (by omega)]

/-- Cuts or extends to `n` elements; new ones are `v`. -/
def resize (a : Arr α) (n : Nat) (v : α) : Arr α :=
  tabulate n fun i => if i < a.size then a.get i else v

@[simp] lemma size_resize (a : Arr α) (n : Nat) (v : α) : (a.resize n v).size = n := rfl

/-- Resizing keeps the elements below both sizes. -/
lemma get_resize_of_lt {a : Arr α} {n i : Nat} (v : α) (hn : i < n) (ha : i < a.size) :
    (a.resize n v).get i = a.get i := by
  rw [resize, get_tabulate _ hn, if_pos ha]

/-- An array that is extended by default elements is as it was. -/
lemma get_resize_of_le {a : Arr α} {n i : Nat} (le : a.size ≤ n) :
    (a.resize n default).get i = a.get i := by
  by_cases inside : i < a.size
  · exact get_resize_of_lt _ (Nat.lt_of_lt_of_le inside le) inside
  · rw [a.past i (Nat.le_of_not_lt inside)]
    by_cases lt : i < n
    · rw [resize, get_tabulate _ lt, if_neg inside]
    · exact (a.resize n default).past i (Nat.le_of_not_lt lt)

/-- Appends a list. -/
def append (a : Arr α) (l : List α) : Arr α :=
  tabulate (a.size + l.length) fun i =>
    if i < a.size then a.get i else l.getD (i - a.size) default

@[simp] lemma size_append (a : Arr α) (l : List α) : (a.append l).size = a.size + l.length := rfl

/-- Copies `n` elements from `src` to `dst` as through a temporary, if both ranges fit. -/
def copyWithin (a : Arr α) (src dst n : Nat) : Arr α where
  size := a.size
  get i :=
    if src + n ≤ a.size ∧ dst + n ≤ a.size ∧ dst ≤ i ∧ i < dst + n then a.get (src + (i - dst))
    else a.get i
  past i h := by
    rw [if_neg (by omega)]
    exact a.past i h

@[simp] lemma size_copyWithin (a : Arr α) (src dst n : Nat) :
    (a.copyWithin src dst n).size = a.size := rfl

/-- The elements after a copy: the source within the target, and the old ones elsewhere. -/
lemma get_copyWithin (a : Arr α) (src dst n i : Nat) :
    (a.copyWithin src dst n).get i =
      if src + n ≤ a.size ∧ dst + n ≤ a.size ∧ dst ≤ i ∧ i < dst + n then a.get (src + (i - dst))
      else a.get i := rfl

/-- Outside of the target of a copy the elements are kept. -/
lemma get_copyWithin_of_outside {a : Arr α} {src dst n i : Nat} (h : i < dst ∨ dst + n ≤ i) :
    (a.copyWithin src dst n).get i = a.get i := by
  rw [get_copyWithin, if_neg (by omega)]

/-- Applies `f` to every element. -/
def map (f : α → β) (a : Arr α) : Arr β := tabulate a.size fun i => f (a.get i)

@[simp] lemma size_map (f : α → β) (a : Arr α) : (a.map f).size = a.size := rfl

/-- The elements of a mapped array. -/
lemma get_map (f : α → β) {a : Arr α} {i : Nat} (h : i < a.size) : (a.map f).get i = f (a.get i) :=
  get_tabulate _ h

/-- The elements up to the first that satisfies `p`, from `off` on. -/
def takeUntil (p : α → Bool) (a : Arr α) (off : Nat) : List α :=
  go (a.size - off) off
where
  /-- At most `n` elements from `i` on. -/
  go : Nat → Nat → List α
    | 0, _ => []
    | n + 1, i => if p (a.get i) then [] else a.get i :: go n (i + 1)

/-- Two arrays agree on the `n` indices from `off` on. -/
def AgreeOn (a b : Arr α) (off n : Nat) : Prop := ∀ i, off ≤ i → i < off + n → a.get i = b.get i

/-- An array agrees with itself. -/
lemma AgreeOn.refl (a : Arr α) (off n : Nat) : a.AgreeOn a off n := fun _ _ _ => rfl

/-- Agreement is symmetric. -/
lemma AgreeOn.symm {a b : Arr α} {off n : Nat} (h : a.AgreeOn b off n) : b.AgreeOn a off n :=
  fun i lo hi => (h i lo hi).symm

/-- Agreement is transitive. -/
lemma AgreeOn.trans {a b c : Arr α} {off n : Nat} (h : a.AgreeOn b off n) (k : b.AgreeOn c off n) :
    a.AgreeOn c off n := fun i lo hi => (h i lo hi).trans (k i lo hi)

/-- Arrays that agree on a range agree on its parts. -/
lemma AgreeOn.mono {a b : Arr α} {off n off' n' : Nat} (h : a.AgreeOn b off n) (lo : off ≤ off')
    (hi : off' + n' ≤ off + n) : a.AgreeOn b off' n' :=
  fun i l u => h i (by omega) (by omega)

/-- A write apart from a range agrees on it. -/
lemma agreeOn_write {a : Arr α} {off n at' : Nat} {l : List α}
    (h : at' + l.length ≤ off ∨ off + n ≤ at') : (a.write at' l).AgreeOn a off n :=
  fun i lo hi => get_write_of_outside (by omega)

end Arr

end Qcvm.Lib

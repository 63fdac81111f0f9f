import Mathlib.Data.List.Nodup

/-!
# Blocks of a memory

A memory gives every cell a value. A block is a list of cells: loading it reads them in order, storing to
it replaces their values and no others.
-/

namespace Qcvm.Lib

variable {α β : Type}

/-- The values of a block. -/
def load (m : α → β) (cells : List α) : List β := cells.map m

@[simp] lemma length_load {m : α → β} {cells : List α} : (load m cells).length = cells.length :=
  List.length_map _

variable [DecidableEq α] {m : α → β} {cells other : List α} {values : List β}

/-- The memory with other values in a block. -/
def store (m : α → β) (cells : List α) (values : List β) : α → β :=
  fun c => ((cells.zip values).lookup c).getD (m c)

/-- What is not in the block stays. -/
lemma store_of_not_mem {c : α} (out : c ∉ cells) : store m cells values c = m c := by
  have none : (cells.zip values).lookup c = none := by
    rw [List.lookup_eq_none_iff]
    rintro ⟨d, v⟩ mem
    have inside := (List.of_mem_zip mem).1
    simp only [bne_iff_ne, ne_eq]
    rintro rfl
    exact out inside
  unfold store
  rw [none, Option.getD_none]

lemma store_cons {c : α} {v : β} : store m (c :: cells) (v :: values) = fun d =>
    if d = c then v else store m cells values d := by
  funext d
  unfold store
  rw [List.zip_cons_cons, List.lookup_cons]
  by_cases same : d = c
  · rw [if_pos same, same, beq_self_eq_true]
    rfl
  · rw [if_neg same, beq_false_of_ne same]

/-- A block that was stored is loaded as it is. -/
lemma load_store (distinct : cells.Nodup) (length : values.length = cells.length) :
    load (store m cells values) cells = values := by
  induction cells generalizing values with
  | nil => exact (List.length_eq_zero_iff.mp length).symm
  | cons c cells ih =>
    cases values with
    | nil => cases length
    | cons v values =>
      obtain ⟨new, distinct⟩ := List.nodup_cons.mp distinct
      have rest := ih distinct (Nat.succ.inj length)
      unfold load at rest ⊢
      rw [store_cons, List.map_cons, if_pos rfl]
      refine congrArg (v :: ·) (Eq.trans (List.map_congr_left fun d mem => ?_) rest)
      exact if_neg fun same : d = c => new (same ▸ mem)

/-- A block apart from the one that was stored is loaded as before. -/
lemma load_store_of_disjoint (apart : cells.Disjoint other) :
    load (store m cells values) other = load m other :=
  List.map_congr_left fun _ mem => store_of_not_mem fun inside => apart inside mem

end Qcvm.Lib

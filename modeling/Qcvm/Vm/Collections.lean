import Qcvm.Vm.Boot
import Qcvm.Vm.StringTable

/-!
# Collections at the end of a call

The slots below the cursor are occupied: between two collections an allocation takes the first free slot
from the cursor on. So the cursor says how many strings were stored since the last collection, and
`wants_collection` asks whether those go past the middle of the table. From this it follows when the end
of a call recovers from an allocation that failed in it.
-/

namespace Qcvm

open Lib

/-- What the last collection left, and how many strings were stored since. -/
structure Since where
  left : Strings
  stored : Nat

namespace Since

/-- The slots below `n` that the last collection left free. -/
def free (h : Since) (n : Nat) : Nat := (List.range n).countP fun i => (h.left.tempRaw i).isNone

/-- The strings stored since the last collection go past the middle of a table of `capacity` slots: they
are more than the slots it left free below the last one of the lower half. -/
def FillsHalf (h : Since) (capacity : Nat) : Prop :=
  capacity / 2 = 0 ∨ h.free (capacity / 2 - 1) < h.stored

instance (h : Since) (capacity : Nat) : Decidable (h.FillsHalf capacity) :=
  inferInstanceAs (Decidable (_ ∨ _))

/-- The history after an operation on `s`. -/
def after (h : Since) (s : Strings) : StringsOp → Since
  | .alloc text => if (s.alloc text).1.isOk then { h with stored := h.stored + 1 } else h
  | .allocRaw data => if (s.allocRaw data).1.isOk then { h with stored := h.stored + 1 } else h
  | .collect roots => ⟨s.collect roots, 0⟩
  | .overwrite .. | .intern _ | .pin _ | .unpin _ => h

/-- The history after operations that begin with `s`. -/
def along (h : Since) (s : Strings) : List StringsOp → Since
  | [] => h
  | op :: ops => (h.after s op).along (s.apply op) ops

variable {h : Since} {s : Strings}

/-- The free slots up to the next one. -/
lemma free_succ (n : Nat) : h.free (n + 1) = h.free n + (h.left.tempRaw n).isNone.toNat := by
  unfold free
  rw [List.range_succ, List.countP_append, List.countP_singleton]
  cases (h.left.tempRaw n).isNone <;> rfl

/-- There are more free slots among more slots. -/
lemma free_mono {m n : Nat} (le : m ≤ n) : h.free m ≤ h.free n := by
  induction le with
  | refl => exact Nat.le_refl _
  | step _ ih =>
    rw [free_succ]
    exact Nat.le_trans ih (Nat.le_add_right _ _)

/-- Slots that are occupied add no free ones. -/
lemma free_of_occupied {m n : Nat} (le : m ≤ n)
    (occupied : ∀ i, m ≤ i → i < n → (h.left.tempRaw i).isSome) : h.free n = h.free m := by
  induction le with
  | refl => rfl
  | @step n le ih =>
    have last := occupied n le (Nat.lt_succ_self n)
    rw [free_succ, ih fun i lo hi => occupied i lo (Nat.lt_succ_of_lt hi), ← Option.not_isSome, last]
    rfl

/-- How the table follows from its history: below the cursor every slot is occupied, from there on it is
as the last collection left it, and the slot before the cursor is the one that was filled last. -/
structure Follows (h : Since) (s : Strings) : Prop where
  packed : ∀ i < s.cursor, (s.tempRaw i).isSome
  beyond : ∀ i, s.cursor ≤ i → (s.tempRaw i).isSome = (h.left.tempRaw i).isSome
  stored : h.stored = h.free s.cursor
  last : ∀ i, s.cursor = i + 1 → h.left.tempRaw i = none

end Since

namespace Strings

variable {s t : Strings} {h : Since}

/-- A temp string is there exactly if its slot holds one. -/
lemma isSome_tempRaw {i : Nat} : (s.tempRaw i).isSome ↔ ∃ data, s.slots[i]? = some (some data) := by
  unfold tempRaw
  cases s.slots[i]? with
  | none => simp
  | some data => cases data <;> simp

/-- The slots below the cursor are among the live ones. -/
lemma Exact.cursor_le_live (exact : s.Exact) (packed : ∀ i < s.cursor, (s.tempRaw i).isSome) :
    s.cursor ≤ s.live := by
  have inside (i : Nat) (lt : i < s.cursor) : i < s.slots.length := by
    obtain ⟨data, e⟩ := isSome_tempRaw.mp (packed i lt)
    exact (List.getElem?_eq_some_iff.mp e).1
  have length : (s.slots.take s.cursor).length = s.cursor := by
    rw [List.length_take]
    by_contra short
    have last := inside (s.cursor - 1) (by omega)
    omega
  have all : (s.slots.take s.cursor).countP Option.isSome = s.cursor := by
    refine (List.countP_eq_length.mpr fun data mem => ?_).trans length
    obtain ⟨i, lt, rfl⟩ := List.getElem_of_mem mem
    have lt : i < s.cursor := length ▸ lt
    obtain ⟨data, e⟩ := isSome_tempRaw.mp (packed i lt)
    rw [List.getElem_take, (List.getElem?_eq_some_iff.mp e).2]
    rfl
  rw [exact.live]
  calc s.cursor = (s.slots.take s.cursor).countP Option.isSome := all.symm
    _ ≤ s.slots.countP Option.isSome := (List.take_sublist _ _).countP_le

/-- The free slot that is found is the first one from the cursor on. -/
lemma findFree_first {slot : Nat} (lt : s.cursor < s.capacity)
    (packed : ∀ i < s.cursor, (s.tempRaw i).isSome) (found : s.findFree = some slot) :
    s.cursor ≤ slot ∧ ∀ i, s.cursor ≤ i → i < slot → s.slots[i]? ≠ some none := by
  have before : ((List.range s.capacity).take s.cursor).find?
      (fun i => s.slots[i]?.any Option.isNone) = none := by
    rw [List.find?_eq_none]
    intro i mem
    rw [List.take_range, List.mem_range] at mem
    obtain ⟨data, e⟩ := isSome_tempRaw.mp (packed i (by omega))
    rw [e]
    simp
  unfold Strings.findFree at found
  rw [Nat.mod_eq_of_lt lt, List.find?_append, before, Option.or_none, List.range_eq_range',
    List.drop_range', List.find?_range'_eq_some] at found
  obtain ⟨-, mem, first⟩ := found
  rw [List.mem_range'_1] at mem
  refine ⟨by omega, fun i lo hi e => ?_⟩
  have taken := first i (by omega) hi
  rw [e] at taken
  cases taken

end Strings

namespace Since

variable {s : Strings} {h : Since}

/-- An allocation that succeeds stores one more string. -/
lemma Follows.allocRaw (f : h.Follows s) (exact : s.Exact) {data : Arr Byte}
    (room : s.bytes + data.size ≤ s.maxBytes) (free : ¬ s.Full) :
    (s.allocRaw data).1.isOk = true ∧
      Follows { h with stored := h.stored + 1 } (s.allocRaw data).2 := by
  obtain ⟨slot, n, done, empty, -, lo, hi, at', found, live⟩ := exact.allocRaw room free
  have same (i : Nat) : (s.withCapacity n).tempRaw i = s.tempRaw i := Strings.tempRaw_withCapacity s n i
  have below : s.cursor < n := Nat.lt_of_le_of_lt (exact.cursor_le_live f.packed) live
  obtain ⟨le, first⟩ := Strings.findFree_first (s := s.withCapacity n) below
    (fun i lt => by rw [same]; exact f.packed i lt) found
  change s.cursor ≤ slot at le
  have filled (i : Nat) (low : s.cursor ≤ i) (high : i < slot) : (s.tempRaw i).isSome := by
    rw [← same]
    have inside := (List.getElem?_eq_some_iff.mp at').1
    have some : (s.withCapacity n).slots[i]? = some (s.withCapacity n).slots[i] :=
      List.getElem?_eq_getElem (Nat.lt_trans high inside)
    refine Strings.isSome_tempRaw.mpr ?_
    cases value : (s.withCapacity n).slots[i] with
    | none => exact absurd (some.trans (congrArg _ value)) (first i low high)
    | some data => exact ⟨data, some.trans (congrArg _ value)⟩
  have raw (i : Nat) : ((s.withCapacity n).put slot data).tempRaw i
      = if i = slot then some data else s.tempRaw i := by
    rw [Strings.tempRaw_put at', same]
  have left : (h.left.tempRaw slot).isSome = false := by
    rw [← f.beyond slot le, empty]
    rfl
  rw [done]
  refine ⟨rfl, ?_, ?_, ?_, ?_⟩
  · intro i lt
    change i < slot + 1 at lt
    rw [raw]
    split
    next => rfl
    next other =>
      by_cases low : i < s.cursor
      · exact f.packed i low
      · exact filled i (by omega) (by omega)
  · intro i ge
    change slot + 1 ≤ i at ge
    rw [raw, if_neg (by omega)]
    exact f.beyond i (by omega)
  · show h.stored + 1 = h.free (slot + 1)
    rw [free_succ, ← Option.not_isSome, left, f.stored, free_of_occupied le fun i low high => ?_]
    · rfl
    · rw [← f.beyond i low]
      exact filled i low high
  · intro i e
    cases Nat.succ.inj e
    exact Option.not_isSome_iff_eq_none.mp (by rw [left]; exact Bool.false_ne_true)

/-- Operations that leave cursor and the occupied slots alone. -/
lemma Follows.congr {t : Strings} (f : h.Follows s) (cursor : t.cursor = s.cursor)
    (occupied : ∀ i, (t.tempRaw i).isSome = (s.tempRaw i).isSome) : h.Follows t where
  packed i lt := by
    rw [occupied]
    exact f.packed i (cursor ▸ lt)
  beyond i le := by
    rw [occupied]
    exact f.beyond i (cursor ▸ le)
  stored := cursor ▸ f.stored
  last i e := f.last i (cursor ▸ e)

/-- A collection is a new beginning. -/
lemma follows_collect (s : Strings) (roots : List (Arr Byte)) :
    Follows ⟨s.collect roots, 0⟩ (s.collect roots) where
  packed i lt := absurd lt (Nat.not_lt_zero i)
  beyond _ _ := rfl
  stored := rfl
  last i e := absurd e.symm (Nat.succ_ne_zero i)

/-- A new table follows its history. -/
lemma follows_new (maxSlots maxBytes : Nat) :
    Follows ⟨.new maxSlots maxBytes, 0⟩ (.new maxSlots maxBytes) where
  packed i lt := absurd lt (Nat.not_lt_zero i)
  beyond _ _ := rfl
  stored := rfl
  last i e := absurd e.symm (Nat.succ_ne_zero i)

/-- An overwritten string stays in its slot. -/
lemma isSome_overwrite (s : Strings) (slot len start : Nat) (text : List Byte) (i : Nat) :
    ((s.overwrite slot len start text).tempRaw i).isSome = (s.tempRaw i).isSome := by
  unfold Strings.overwrite
  split
  next => rfl
  next data t e =>
    obtain ⟨before, old, -, -, -, -, rfl⟩ := Strings.tempRawMut_eq_some e
    have at' : s.slots[slot]? = some (some before) := Option.join_eq_some_iff.mp old
    obtain ⟨lt, -⟩ := List.getElem?_eq_some_iff.mp at'
    simp only [List.set_set]
    by_cases same : i = slot
    · subst same
      rw [old]
      simp [Strings.tempRaw, List.getElem?_set_self lt]
    · simp only [Strings.tempRaw, List.getElem?_set_ne fun e => same e.symm]

/-- Overwriting a temp string keeps the cursor. -/
lemma cursor_overwrite (s : Strings) (slot len start : Nat) (text : List Byte) :
    (s.overwrite slot len start text).cursor = s.cursor := by
  unfold Strings.overwrite
  split
  next => rfl
  next data t e =>
    obtain ⟨before, -, -, -, -, -, rfl⟩ := Strings.tempRawMut_eq_some e
    rfl

/-- An allocation that fails changes nothing. -/
lemma Follows.allocRaw_any (f : h.Follows s) (exact : s.Exact) (data : Arr Byte) :
    Follows (if (s.allocRaw data).1.isOk then { h with stored := h.stored + 1 } else h)
      (s.allocRaw data).2 := by
  by_cases refused : s.maxBytes < s.bytes + data.size ∨ s.Full
  · rw [Strings.allocRaw_refused refused]
    exact f
  · rw [not_or] at refused
    have room : s.bytes + data.size ≤ s.maxBytes := by omega
    obtain ⟨ok, f⟩ := f.allocRaw exact room refused.2
    rw [ok]
    exact f

/-- The table follows its history through every operation. -/
lemma Follows.apply (f : h.Follows s) (exact : s.Exact) (op : StringsOp) :
    (h.after s op).Follows (s.apply op) := by
  cases op with
  | alloc text =>
    unfold Since.after Strings.apply
    dsimp only
    rcases Strings.alloc_eq s text with e | ⟨-, e⟩
    · rw [e]
      exact f.allocRaw_any exact _
    · rw [e]
      exact f
  | allocRaw data => exact f.allocRaw_any exact data
  | overwrite slot len start text =>
    exact f.congr (cursor_overwrite ..) (isSome_overwrite s slot len start text)
  | intern text =>
    show h.Follows (s.intern text).2
    rw [Strings.intern_eq]
    exact f.congr rfl fun _ => rfl
  | pin r =>
    show h.Follows (s.pin r)
    rw [Strings.pin_eq]
    exact f.congr rfl fun _ => rfl
  | unpin r =>
    show h.Follows (s.unpin r)
    rw [Strings.unpin_eq]
    exact f.congr rfl fun _ => rfl
  | collect roots => exact follows_collect s roots

/-- Every sequence of operations follows its history. -/
lemma Follows.run (f : h.Follows s) (exact : s.Exact) (ops : List StringsOp) :
    (h.along s ops).Follows (s.run ops) := by
  induction ops generalizing h s with
  | nil => exact f
  | cons op ops ih => exact ih (f.apply exact op) (exact.apply op)

/-- The cursor is past the middle of the table when the strings stored since the last collection are. -/
lemma Follows.fillsHalf_iff (f : h.Follows s) (capacity : Nat) :
    h.FillsHalf capacity ↔ capacity / 2 ≤ s.cursor := by
  unfold FillsHalf
  rw [f.stored]
  constructor
  · rintro (none | more)
    · omega
    · by_contra short
      have le := h.free_mono (show s.cursor ≤ capacity / 2 - 1 by omega)
      omega
  · intro past
    by_cases none : capacity / 2 = 0
    · exact .inl none
    · obtain ⟨last, e⟩ : ∃ last, s.cursor = last + 1 := ⟨s.cursor - 1, by omega⟩
      have le := h.free_mono (show capacity / 2 - 1 ≤ last by omega)
      refine .inr ?_
      rw [e, free_succ, f.last last e]
      exact Nat.lt_succ_of_le le

/-- So whether a collection is due is a matter of how many strings were stored since the last one. -/
lemma Follows.wantsCollection_iff (f : h.Follows s) (exact : s.Exact) :
    s.wantsCollection = true ↔ h.FillsHalf s.capacity := by
  have live := exact.cursor_le_live f.packed
  rw [f.fillsHalf_iff]
  unfold Strings.wantsCollection
  rw [Bool.and_eq_true, decide_eq_true_iff, decide_eq_true_iff]
  exact ⟨fun due => due.2, fun past => ⟨Nat.le_trans past live, past⟩⟩

end Since

/-! ## The end of a call -/

namespace Sys

variable {s : Sys}

/-- The system with other strings. -/
def withStrings (s : Sys) (strings : Strings) : Sys :=
  s.mapCore fun core => { core with strings := strings }

/-- A collection is made exactly if the table wants one. -/
lemma strings_collect (s : Sys) : s.collect.vm.core.strings =
    if s.vm.core.strings.wantsCollection then s.vm.core.strings.collect s.vm.core.roots
    else s.vm.core.strings := by
  unfold collect
  split
  next => rfl
  next => rfl

/-- The end of a top-level call and of `run_threads` collect alike. -/
lemma strings_endTopLevel (s : Sys) (strings : Strings) (ran : Nat) :
    (s.withStrings strings).endTopLevel.vm.core.strings
        = (s.withStrings strings).collect.vm.core.strings ∧
      ((s.withStrings strings).nextThread [] ran).vm.core.strings
        = (s.withStrings strings).collect.vm.core.strings := by
  refine ⟨?_, rfl⟩
  unfold endTopLevel
  dsimp only
  rw [strings_collect, strings_collect]
  split
  next => rfl
  next => rfl

end Sys

namespace Strings

/-- A string that nothing in the memory of the VM or its threads names, and nobody pinned. -/
def Garbage (s : Strings) (core : Core) (slot : Nat) : Prop :=
  (s.tempRaw slot).isSome ∧ ¬ (s.Pinned slot ∨ Named core.roots slot)

/-- Running out of temp strings for `text` does not last: a collection is wanted then, and after the
`rest` of the call its end drops all garbage, be it a top-level call or `run_threads`. -/
def Recovers (s : Strings) (text : List Byte) (rest : List StringsOp) (sys : Sys) : Prop :=
  ∀ e t, s.alloc text = (.error e, t) → t.wantsCollection = true ∧
    ∀ slot, (t.run rest).Garbage sys.vm.core slot →
      (sys.withStrings (t.run rest)).endTopLevel.vm.core.strings.tempRaw slot = none ∧
      ∀ ran, ((sys.withStrings (t.run rest)).nextThread [] ran).vm.core.strings.tempRaw slot = none

/-- Sequences of operations can be joined. -/
lemma run_append (s : Strings) (ops rest : List StringsOp) : s.run (ops ++ rest) = (s.run ops).run rest :=
  List.foldl_append

/-- The end of a call drops the garbage if a collection is due, and only then. -/
lemma drops_iff {s : Strings} (exact : s.Exact) (sys : Sys) (slot : Nat)
    (garbage : s.Garbage sys.vm.core slot) :
    ((sys.withStrings s).endTopLevel.vm.core.strings.tempRaw slot = none ∧
      ∀ ran, ((sys.withStrings s).nextThread [] ran).vm.core.strings.tempRaw slot = none) ↔
    s.wantsCollection = true := by
  obtain ⟨some, unnamed⟩ := garbage
  have ends := fun ran => sys.strings_endTopLevel s ran
  simp only [(ends 0).1, (ends _).2, forall_const, and_self]
  rw [Sys.strings_collect]
  change (if s.wantsCollection = true then s.collect sys.vm.core.roots else s).tempRaw slot = none ↔ _
  split
  next due => exact iff_of_true ((exact.tempRaw_collect _ slot).2 unnamed) due
  next early =>
    refine iff_of_false (fun none => ?_) early
    rw [none] at some
    cases some

end Strings

end Qcvm

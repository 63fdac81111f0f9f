import Qcvm.Num
import Qcvm.Lib.Overlap

/-!
# Substring search

`find` of `stdlib/string.rs`: windows for needles of up to 16 bytes, a failure table above. The
table is filled while the needle is read against itself and then drives the same loop over the
haystack, so both are one automaton: what it has read so far ends with the longest possible
beginning of the needle (`FailTable.advance_longest`).
-/

namespace Qcvm

open Lib

namespace Stdlib

/-- The failure table. An entry is at most its index, so a fallback is shorter. -/
structure FailTable where
  entries : List Nat
  le : ∀ i, entries.getD i 0 ≤ i

namespace FailTable

/-- The inner loop: falls back until the byte continues the needle or nothing is left. -/
def back (f : FailTable) (needle : List Byte) (c : Byte) (k : Nat) : Nat :=
  if 0 < k ∧ needle[k]? ≠ some c then f.back needle c (f.entries.getD (k - 1) 0) else k
termination_by k
decreasing_by
  next shorter =>
    have := f.le (k - 1)
    omega

/-- How much of the needle is read after one more byte. -/
def advance (f : FailTable) (needle : List Byte) (k : Nat) (c : Byte) : Nat :=
  if needle[f.back needle c k]? = some c then f.back needle c k + 1 else f.back needle c k

lemma back_le {f : FailTable} {needle : List Byte} {c : Byte} {k : Nat} :
    f.back needle c k ≤ k := by
  fun_induction back f needle c k with
  | case1 k _ ih =>
    have := f.le (k - 1)
    omega
  | case2 => exact le_rfl

lemma advance_le {f : FailTable} {needle : List Byte} {c : Byte} {k : Nat} :
    f.advance needle k c ≤ k + 1 := by
  have le := @back_le f needle c k
  unfold advance
  split
  · exact Nat.succ_le_succ le
  · exact Nat.le_succ_of_le le

end FailTable

/-- The table being filled, and how much of the needle its own end repeats. -/
structure Filling where
  table : FailTable
  k : Nat
  lt : k < table.entries.length

namespace Filling

/-- The entry of the first byte. -/
def start : Filling where
  table := ⟨[0], fun i => by cases i <;> exact Nat.zero_le _⟩
  k := 0
  lt := Nat.one_pos

/-- The entry of one more byte; later entries are 0 until they are filled. -/
def push (needle : List Byte) (b : Filling) (c : Byte) : Filling where
  table :=
    { entries := b.table.entries ++ [b.table.advance needle b.k c]
      le := fun i => by
        rcases Nat.lt_trichotomy i b.table.entries.length with lt | rfl | gt
        · rw [List.getD_append _ _ _ _ lt]
          exact b.table.le i
        · rw [List.getD_append_right _ _ _ _ le_rfl, Nat.sub_self, List.getD_cons_zero]
          exact FailTable.advance_le.trans b.lt
        · rw [List.getD_eq_default _ _ (by rw [List.length_append]; exact gt)]
          exact Nat.zero_le _ }
  k := b.table.advance needle b.k c
  lt := by
    rw [List.length_append]
    exact Nat.lt_of_le_of_lt FailTable.advance_le (Nat.succ_lt_succ b.lt)

end Filling

/-- The filled table: the length of the longest proper border of every beginning of the needle. -/
def failTable (needle : List Byte) : FailTable :=
  (needle.tail.foldl (Filling.push needle) .start).table

/-- The loop over the haystack from index `i` on. -/
def searchLoop (f : FailTable) (needle : List Byte) : List Byte → Nat → Nat → Option Nat
  | [], _, _ => none
  | c :: haystack, i, k =>
    if f.advance needle k c = needle.length then some (i + 1 - f.advance needle k c)
    else searchLoop f needle haystack (i + 1) (f.advance needle k c)

/-- `find`: the first occurrence of the needle; an empty needle matches at 0. -/
def find (haystack needle : List Byte) : Option Nat :=
  if needle = [] then some 0
  else if needle.length ≤ 16 then
    (List.range (haystack.length + 1 - needle.length)).find? fun i =>
      (haystack.drop i).take needle.length == needle
  else searchLoop (failTable needle) needle haystack 0 0

variable {f : FailTable} {needle t haystack : List Byte} {c : Byte} {i k : Nat}

namespace FailTable

/-- The first `n` entries are the longest proper borders. -/
def Exact (f : FailTable) (needle : List Byte) (n : Nat) : Prop :=
  ∀ i < n, Longest needle (needle.take (i + 1)).tail (f.entries.getD i 0)

/-- Falling back passes no overlap that the byte continues. -/
lemma back_spec (exact_ : f.Exact needle k) (h : Overlaps needle t k) :
    Overlaps needle t (f.back needle c k) ∧
      (f.back needle c k = 0 ∨ needle[f.back needle c k]? = some c) ∧
      ∀ j ≤ k, Overlaps needle t j → needle[j]? = some c → j ≤ f.back needle c k := by
  fun_induction back f needle c k with
  | case1 k shorter ih =>
    obtain ⟨pos, other⟩ := shorter
    have border := exact_ (k - 1) (Nat.sub_lt pos Nat.one_pos)
    have le := f.le (k - 1)
    rw [Nat.sub_add_cancel pos] at border
    have lt : f.entries.getD (k - 1) 0 < k := by omega
    obtain ⟨overlap, stop, most⟩ :=
      ih (fun i low => exact_ i (low.trans lt)) ((h.below lt).mpr border.overlaps)
    refine ⟨overlap, stop, fun j bound overlap' next => most j ?_ overlap' next⟩
    rcases Nat.lt_or_eq_of_le bound with lower | rfl
    · exact border.longest j ((h.below lower).mp overlap')
    · exact absurd next other
  | case2 k stop =>
    refine ⟨h, ?_, fun j bound _ _ => bound⟩
    by_contra running
    rw [not_or] at running
    exact stop ⟨Nat.pos_of_ne_zero running.1, running.2⟩

/-- One turn keeps the longest overlap. -/
lemma advance_longest (exact_ : f.Exact needle k) (h : Longest needle t k) :
    Longest needle (t ++ [c]) (f.advance needle k c) := by
  obtain ⟨overlap, stop, most⟩ := @back_spec f needle t c k exact_ h.overlaps
  have all (j : Nat) (other : Overlaps needle t j) (next : needle[j]? = some c) :
      j ≤ f.back needle c k := most j (h.longest j other) other next
  unfold advance
  split
  next here => exact .snoc_of_continued overlap here all
  next differs =>
    have zero : f.back needle c k = 0 := stop.resolve_right differs
    rw [zero] at all differs ⊢
    refine .snoc_of_none fun j other next => ?_
    obtain rfl := Nat.le_zero.mp (all j other next)
    exact differs next

end FailTable

/-- The table is filled for the beginning `t` of the needle. -/
structure Filling.Reads (b : Filling) (needle t : List Byte) : Prop where
  length : b.table.entries.length = t.length
  exact_ : b.table.Exact needle t.length
  longest : Longest needle t.tail b.k

lemma Filling.Reads.push {b : Filling} {rest : List Byte} (h : b.Reads needle t)
    (split : needle = t ++ c :: rest) : (b.push needle c).Reads needle (t ++ [c]) := by
  have inside := b.lt
  rw [h.length] at inside
  have tail : (t ++ [c]).tail = t.tail ++ [c] :=
    List.tail_append_of_ne_nil (List.ne_nil_of_length_pos (Nat.zero_lt_of_lt inside))
  have next : Longest needle (t.tail ++ [c]) (b.table.advance needle b.k c) :=
    FailTable.advance_longest (fun i low => h.exact_ i (low.trans inside)) h.longest
  constructor
  · rw [Filling.push, List.length_append, List.length_append, h.length]
    rfl
  · intro i low
    rw [List.length_append] at low
    rcases Nat.lt_or_eq_of_le (Nat.le_of_lt_succ low) with before | rfl
    · rw [Filling.push, List.getD_append _ _ _ _ (h.length ▸ before)]
      exact h.exact_ i before
    · rw [Filling.push, ← h.length, List.getD_append_right _ _ _ _ le_rfl, Nat.sub_self,
        List.getD_cons_zero, h.length]
      have read : needle.take (t.length + 1) = t ++ [c] := by
        rw [split, List.take_append, List.take_of_length_le (Nat.le_succ _),
          Nat.add_sub_cancel_left, List.take_succ_cons, List.take_zero]
      rw [read, tail]
      exact next
  · rw [tail]
    exact next

/-- Reading the rest of the needle fills the rest of the table. -/
lemma Filling.Reads.foldl {b : Filling} {rest : List Byte} (h : b.Reads needle t)
    (split : needle = t ++ rest) : (rest.foldl (Filling.push needle) b).Reads needle needle := by
  induction rest generalizing b t with
  | nil =>
    rw [List.append_nil] at split
    subst split
    exact h
  | cons c rest ih =>
    rw [List.foldl_cons]
    exact ih (h.push split) (by rw [split, List.append_assoc]; rfl)

lemma failTable_exact : (failTable needle).Exact needle needle.length := by
  cases needle with
  | nil => exact fun i low => absurd low (Nat.not_lt_zero i)
  | cons c rest =>
    have one : Filling.start.Reads (c :: rest) [c] := by
      refine ⟨rfl, fun i low => ?_, ⟨overlaps_zero, fun j overlap => overlap.le⟩⟩
      obtain rfl := Nat.lt_one_iff.mp low
      exact ⟨overlaps_zero, fun j overlap => overlap.le⟩
    exact (one.foldl rfl).exact_

/-- The place is the first at which the needle occurs. -/
def First (needle haystack : List Byte) (i : Nat) : Prop :=
  OccursAt needle haystack i ∧ ∀ j, OccursAt needle haystack j → i ≤ j

/-- A search result: the first place, or none where the needle does not occur. -/
def Finds (needle haystack : List Byte) (result : Option Nat) : Prop :=
  result.elim (∀ i, ¬ OccursAt needle haystack i) (First needle haystack)

/-- The loop finds the first occurrence that does not end in what it has read. -/
lemma searchLoop_finds {rest : List Byte} (exact_ : f.Exact needle needle.length)
    (longest : Longest needle t k) (lt : k < needle.length) (split : haystack = t ++ rest)
    (later : ∀ j, OccursAt needle haystack j → t.length < j + needle.length) :
    Finds needle haystack (searchLoop f needle rest t.length k) := by
  induction rest generalizing t k with
  | nil =>
    intro j occurs
    have bound := occurs.le
    rw [split, List.append_nil] at bound
    exact absurd (later j occurs) (Nat.not_lt.mpr bound)
  | cons c rest ih =>
    have next : Longest needle (t ++ [c]) (f.advance needle k c) :=
      FailTable.advance_longest (fun i low => exact_ i (low.trans lt)) longest
    have long : (t ++ [c]).length = t.length + 1 := List.length_append
    have split' : haystack = (t ++ [c]) ++ rest := by rw [split, List.append_assoc]; rfl
    unfold searchLoop
    split
    next whole =>
      have ends : needle <:+ t ++ [c] := overlaps_length.mp (whole ▸ next.overlaps)
      have here := @occursAt_of_suffix _ _ _ rest ends
      rw [← split', long] at here
      refine ⟨whole ▸ here, fun j occurs => ?_⟩
      have := later j occurs
      omega
    next partly =>
      rw [← long]
      have inside : f.advance needle k c < needle.length :=
        Nat.lt_of_le_of_ne next.overlaps.1 partly
      refine ih next inside split' fun j occurs => ?_
      by_contra ended
      have stop : j + needle.length = (t ++ [c]).length := by
        have := later j occurs
        omega
      have ends := (split' ▸ occurs).suffix stop
      exact absurd (next.longest _ (overlaps_length.mpr ends)) (Nat.not_le.mpr inside)

/-- The window at `i` is the needle exactly where the needle occurs. -/
lemma window_iff (bound : i + needle.length ≤ haystack.length) :
    (haystack.drop i).take needle.length = needle ↔ OccursAt needle haystack i := by
  constructor
  · intro window
    have parts := List.take_append_drop needle.length (haystack.drop i)
    rw [window] at parts
    refine ⟨haystack.take i, (haystack.drop i).drop needle.length, ?_, ?_⟩
    · rw [List.append_assoc, parts, List.take_append_drop]
    · rw [List.length_take, Nat.min_eq_left (Nat.le_of_add_right_le bound)]
  · rintro ⟨pre, post, rfl, rfl⟩
    rw [List.append_assoc, List.drop_left, List.take_left]

lemma windows_finds : Finds needle haystack
    ((List.range (haystack.length + 1 - needle.length)).find? fun i =>
      (haystack.drop i).take needle.length == needle) := by
  have inside {j : Nat} (occurs : OccursAt needle haystack j) :
      j < haystack.length + 1 - needle.length := by
    have := occurs.le
    omega
  cases found : (List.range (haystack.length + 1 - needle.length)).find? fun i =>
      (haystack.drop i).take needle.length == needle with
  | none =>
    intro j occurs
    have window := (window_iff occurs.le).mpr occurs
    have differs := List.find?_eq_none.mp found j (List.mem_range.mpr (inside occurs))
    exact differs (beq_iff_eq.mpr window)
  | some i =>
    obtain ⟨window, bound, before⟩ := List.find?_range_eq_some.mp found
    have bound := List.mem_range.mp bound
    refine ⟨(window_iff (by omega)).mp (beq_iff_eq.mp window), fun j occurs => ?_⟩
    by_contra earlier
    have differs := before j (Nat.not_le.mp earlier)
    have window := (window_iff occurs.le).mpr occurs
    rw [window, beq_self_eq_true] at differs
    cases differs

lemma find_finds : Finds needle haystack (find haystack needle) := by
  unfold find
  split_ifs with empty short
  · subst empty
    exact ⟨⟨[], haystack, rfl, rfl⟩, fun j _ => Nat.zero_le j⟩
  · exact windows_finds
  · have pos : 0 < needle.length := List.length_pos_iff.mpr empty
    refine searchLoop_finds (t := []) failTable_exact ?_ pos rfl fun j _ => ?_
    · exact ⟨overlaps_zero, fun j overlap => overlap.le⟩
    · exact Nat.add_pos_right j pos

/-- The search gives the first place where the needle occurs, and nothing exactly when there is no
such place. -/
theorem find_exact (haystack needle : List Byte) :
    (∀ i, find haystack needle = some i ↔ First needle haystack i) ∧
      (find haystack needle = none ↔ ∀ i, ¬ OccursAt needle haystack i) := by
  have finds := @find_finds needle haystack
  cases found : find haystack needle with
  | none =>
    rw [found] at finds
    refine ⟨fun i => ?_, ?_⟩
    · constructor
      · intro same
        cases same
      · intro first
        exact absurd first.1 (finds i)
    · exact ⟨fun _ => finds, fun _ => rfl⟩
  | some i =>
    rw [found] at finds
    refine ⟨fun j => ?_, ?_⟩
    · constructor
      · intro same
        cases same
        exact finds
      · intro first
        rw [le_antisymm (finds.2 j first.1) (first.2 i finds.1)]
    · constructor
      · intro same
        cases same
      · intro none
        exact absurd finds.1 (none i)

end Stdlib

end Qcvm

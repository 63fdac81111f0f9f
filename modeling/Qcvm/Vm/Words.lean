import Qcvm.Interp.Moves

/-!
# Words of region S

What the word accesses of region S read after they wrote: a word that is written is read back, and
words that lie apart do not disturb each other. A fold that rewrites words one after another comes,
for each word, to the fold of the rewrites of that word.
-/

namespace Qcvm

open Lib

namespace Memory

variable {m : Memory} {off off' : Nat} {v : Word}

lemma g_setG_self (fits : off + 4 ≤ m.s.size) : (m.setG off v).g off = v := by
  rw [g, setG, u32At_putU32_self fits, Option.getD_some]

lemma g_setG_of_apart (apart : off + 4 ≤ off' ∨ off' + 4 ≤ off) : (m.setG off v).g off' = m.g off' := by
  rw [g, setG, u32At_putU32_of_apart apart, g]

/-- A word that is written leaves the bytes outside alone. -/
lemma get_setG_of_outside {o : Nat} (outside : o < off ∨ off + 4 ≤ o) :
    (m.setG off v).s.get o = m.s.get o :=
  Arr.get_write_of_outside (by rw [length_leBytes]; exact outside)

/-- Words that are copied leave the bytes outside alone. -/
lemma get_copyG_of_outside (m : Memory) (src dst words : Nat) {o : Nat}
    (outside : o < dst ∨ dst + 4 * words ≤ o) : (m.copyG src dst words).s.get o = m.s.get o := by
  have each : ∀ i ∈ List.range words, o < dst + 4 * i ∨ dst + 4 * i + 4 ≤ o := by
    intro i mem
    have := List.mem_range.mp mem
    omega
  unfold copyG
  generalize List.range words = l at each
  induction l generalizing m with
  | nil => rfl
  | cons i l ih =>
    rw [List.foldl_cons, ih _ fun j mem => each j (List.mem_cons_of_mem i mem)]
    exact get_setG_of_outside (each i List.mem_cons_self)

lemma get_copyPairs_of_outside (m : Memory) (ranges : List (Nat × Nat × Nat)) {o : Nat}
    (outside : ∀ r ∈ ranges, o < r.2.1 ∨ r.2.1 + 4 * r.2.2 ≤ o) :
    (copyPairs m ranges).s.get o = m.s.get o := by
  unfold copyPairs
  induction ranges generalizing m with
  | nil => rfl
  | cons r ranges ih =>
    rw [List.foldl_cons, ih _ fun q mem => outside q (List.mem_cons_of_mem r mem)]
    exact get_copyG_of_outside _ _ _ _ (outside r List.mem_cons_self)

/-- A word of the initial globals. -/
lemma g_putGlobals {globals : Arr Word} {gbase w : Nat} {s : Arr Byte}
    (e : m.s = putGlobals s gbase globals) (fits : gbase + 4 * globals.size ≤ s.size)
    (lt : w < globals.size) : m.g (gbase + 4 * w) = globals.get w := by
  have len (i : Nat) : (leBytes (globals.get i)).length = 4 := length_leBytes _
  have length : ((List.range globals.size).flatMap fun i => leBytes (globals.get i)).length
      = 4 * globals.size := by
    rw [length_flatMap_of_length len, List.length_range]
  rw [g, e, u32At, if_pos (by rw [Core.size_putGlobals]; omega), Option.getD_some]
  refine wordAt_eq fun i hi => ?_
  rw [putGlobals, Arr.get_write_of_inside (by omega) (by omega) (by omega),
    show gbase + 4 * w + i - gbase = 4 * w + i by omega]
  have index : (List.range globals.size).getD w 0 = w := by
    rw [List.getD_eq_getElem _ _ (by simpa using lt), List.getElem_range]
  refine (getD_flatMap len 0 0 (by simpa using lt) hi).trans ?_
  rw [index]

end Memory

/-! ## Rewriting words -/

/-- A step rewrites one word, which the item it takes names. -/
structure Rewrites {α : Type} (base : Nat) (word : α → Nat) (f : α → Word → Word)
    (step : Memory → α → Memory) : Prop where
  size : ∀ m a, (step m a).s.size = m.s.size
  self : ∀ m a, base + 4 * word a + 4 ≤ m.s.size →
    (step m a).g (base + 4 * word a) = f a (m.g (base + 4 * word a))
  other : ∀ m a w, w ≠ word a → (step m a).g (base + 4 * w) = m.g (base + 4 * w)

/-- What a fold of rewrites makes of a word. -/
lemma Rewrites.foldl {α : Type} {base : Nat} {word : α → Nat} {f : α → Word → Word}
    {step : Memory → α → Memory} (r : Rewrites base word f step) (l : List α) {m : Memory} {w : Nat}
    (fits : base + 4 * w + 4 ≤ m.s.size) :
    (l.foldl step m).g (base + 4 * w)
      = (l.filter (word · = w)).foldl (fun v a => f a v) (m.g (base + 4 * w)) := by
  induction l generalizing m with
  | nil => rfl
  | cons a l ih =>
    rw [List.foldl_cons, ih (by rw [r.size]; exact fits)]
    by_cases here : word a = w
    · subst here
      rw [List.filter_cons_of_pos (by simp), List.foldl_cons, r.self m a fits]
    · rw [List.filter_cons_of_neg (by simpa using here), r.other m a w (Ne.symm here)]

end Qcvm

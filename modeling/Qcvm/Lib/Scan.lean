import Mathlib.Tactic.Common
import Mathlib.Algebra.Order.Ring.Nat

/-!
# Reading forwards through a list

A reader moves over positions of a list. `skipWhile` passes the elements that satisfy a test.
A `Scanner` collects a text: each of its reads yields what to add to the text and where to go on,
and a read that goes on moves forwards inside the list, so `scan` always ends. What every read
keeps of its position, the position where `scan` stops has (`Scanner.scan_end`), and the length
limit holds of the text (`Scanner.scan_length`).
-/

namespace Qcvm.Lib

variable {α : Type}

/-! ## Skipping -/

/-- The first position from `p` on whose element does not satisfy `q`. -/
def skipWhile (q : α → Bool) (s : List α) (p : Nat) : Nat := p + (s.drop p).findIdx fun a => !q a

section Skip

variable {q : α → Bool} {s : List α} {p i : Nat}

lemma le_skipWhile : p ≤ skipWhile q s p := Nat.le_add_right ..

lemma skipWhile_le (h : p ≤ s.length) : skipWhile q s p ≤ s.length := by
  have found := @List.findIdx_le_length _ (fun a => !q a) (s.drop p)
  rw [List.length_drop] at found
  unfold skipWhile
  omega

/-- Every element passed satisfies the test. -/
lemma passed_of_lt_skipWhile {a : α} (low : p ≤ i) (high : i < skipWhile q s p)
    (here : s[i]? = some a) : q a = true := by
  have inside : i - p < (s.drop p).findIdx fun a => !q a := by
    unfold skipWhile at high
    omega
  have there : (s.drop p)[i - p]? = some a := by
    rw [List.getElem?_drop, Nat.add_sub_cancel' low, here]
  obtain ⟨bound, rfl⟩ := List.getElem?_eq_some_iff.mp there
  simpa using List.not_of_lt_findIdx inside

/-- The element where the skip stops fails the test. -/
lemma stopped_skipWhile {a : α} (h : s[skipWhile q s p]? = some a) : q a = false := by
  unfold skipWhile at h
  rw [← List.getElem?_drop] at h
  obtain ⟨bound, rfl⟩ := List.getElem?_eq_some_iff.mp h
  simpa using List.findIdx_getElem (w := bound)

end Skip

/-! ## Scanning -/

/-- What one read adds to the text, the position after it, and whether reading goes on. -/
structure Read (α : Type) where
  text : List α
  pos : Nat
  more : Bool
  deriving Repr, DecidableEq

/-- The reads of a text in `s`, each of which moves forwards. -/
structure Scanner (s : List α) where
  read : Nat → Read α
  forward : ∀ p, (read p).more = true → p < (read p).pos ∧ (read p).pos ≤ s.length
  single : ∀ p, (read p).text.length ≤ 1

namespace Scanner

variable {s : List α} (r : Scanner s) {limit p : Nat} {out : List α}

/-- Reads from `p` until a read ends the text or the text is `limit` long. -/
def scan (limit : Nat) (out : List α) (p : Nat) : List α × Nat :=
  if limit ≤ out.length then (out, p)
  else
    if (r.read p).more then scan limit (out ++ (r.read p).text) (r.read p).pos
    else (out ++ (r.read p).text, (r.read p).pos)
termination_by s.length - p
decreasing_by
  next more =>
    have := r.forward p more
    omega

/-- A scan's text is never longer than its limit. -/
lemma scan_length (h : out.length ≤ limit) : (r.scan limit out p).1.length ≤ limit := by
  fun_induction Scanner.scan r limit out p with
  | case1 out p full => exact h
  | case2 out p room more ih =>
    apply ih
    have := r.single p
    simp only [List.length_append]
    omega
  | case3 out p room last =>
    have := r.single p
    simp only [List.length_append]
    omega

/-- What holds of the start and is kept by every read holds where the scan ends. -/
lemma scan_end {P Q : Nat → Prop} (start : P p)
    (step : ∀ p, P p → (r.read p).more = true → P (r.read p).pos)
    (last : ∀ p, P p → (r.read p).more = false → Q (r.read p).pos) (weaken : ∀ p, P p → Q p) :
    Q (r.scan limit out p).2 := by
  fun_induction Scanner.scan r limit out p with
  | case1 out p full => exact weaken p start
  | case2 out p room more ih => exact ih (step p start more)
  | case3 out p room stop => exact last p start (by simpa using stop)

/-- A scan with room for an element reads at least once. -/
lemma scan_read (room : out.length < limit) :
    r.scan limit out p = if (r.read p).more then
      r.scan limit (out ++ (r.read p).text) (r.read p).pos
      else (out ++ (r.read p).text, (r.read p).pos) := by
  rw [scan, if_neg (Nat.not_le.mpr room)]

lemma scan_more {text : List α} {pos : Nat} (room : out.length < limit)
    (here : r.read p = ⟨text, pos, true⟩) :
    r.scan limit out p = r.scan limit (out ++ text) pos := by
  rw [r.scan_read room]
  simp only [here, if_true]

lemma scan_last {text : List α} {pos : Nat} (room : out.length < limit)
    (here : r.read p = ⟨text, pos, false⟩) : r.scan limit out p = (out ++ text, pos) := by
  rw [r.scan_read room]
  simp only [here, Bool.false_eq_true, if_false]

/-- A text written element by element, each of which reads back as itself, is read back. -/
lemma scan_encoded {f : α → List α} {u pre last : List α} {stop : Nat}
    (each : ∀ c ∈ u, ∀ pre post, s = pre ++ (f c ++ post) →
      r.read pre.length = ⟨[c], pre.length + (f c).length, true⟩)
    (split : s = pre ++ (u.flatMap f ++ last))
    (stops : r.read (pre ++ u.flatMap f).length = ⟨[], stop, false⟩)
    (room : out.length + u.length < limit) : r.scan limit out pre.length = (out ++ u, stop) := by
  induction u generalizing pre out with
  | nil =>
    rw [List.flatMap_nil, List.append_nil] at stops
    exact r.scan_last room stops
  | cons c u ih =>
    rw [List.length_cons] at room
    rw [List.flatMap_cons, List.append_assoc] at split
    rw [List.flatMap_cons, ← List.append_assoc] at stops
    have first := each c List.mem_cons_self pre _ split
    rw [r.scan_more (by omega) first, ← List.length_append]
    rw [ih (fun d mem => each d (List.mem_cons_of_mem _ mem)) (by rw [split, List.append_assoc])
      stops (by rw [List.length_append, List.length_singleton]; omega), List.append_assoc]
    rfl

end Scanner

end Qcvm.Lib

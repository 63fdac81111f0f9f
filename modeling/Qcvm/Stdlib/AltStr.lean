import Mathlib.Data.List.Induction
import Qcvm.Progs.Load
import Qcvm.Stdlib.Tokenize

/-!
# Alt strings

The alt strings of `stdlib/string.rs`: lists of strings in single quotes, where a backslash escapes the
next byte inside and outside the quotes. Counting, finding, reading and replacing a string each scan
the text. A text is cut at its unescaped quotes (`Bare` is what lies between two), and each scan is
described by what it does to a piece.
-/

namespace Qcvm.Stdlib

open Lib

/-- The loop of `after_quote` at byte `i`, after `seen` quotes. -/
def afterQuoteFrom (n seen i : Nat) : List Byte → Option Nat
  | [] => none
  | c :: s =>
    if c = backslash then
      match s with
      | [] => none
      | _ :: s => afterQuoteFrom n seen (i + 2) s
    else if c = singleQuote then
      if seen + 1 = n then some (i + 1) else afterQuoteFrom n (seen + 1) (i + 1) s
    else afterQuoteFrom n seen (i + 1) s

/-- `after_quote`. -/
def afterQuote (s : List Byte) (n : Int) : Option Nat :=
  if n ≤ 0 then none else afterQuoteFrom n.toNat 0 0 s

/-- The loop of `closing_quote` at byte `i`; `none` at the end of the string. -/
def closingQuoteFrom : Nat → List Byte → Option Nat
  | _, [] => none
  | i, c :: s =>
    if c = backslash then
      match s with
      | [] => none
      | _ :: s => closingQuoteFrom (i + 2) s
    else if c = singleQuote then some i
    else closingQuoteFrom (i + 1) s

/-- `closing_quote`. -/
def closingQuote (s : List Byte) (start : Nat) : Nat :=
  (closingQuoteFrom start (s.drop start)).getD s.length

/-- The number of unescaped quotes. -/
def quoteCount : List Byte → Nat
  | [] => 0
  | c :: s =>
    if c = backslash then
      match s with
      | [] => 0
      | _ :: s => quoteCount s
    else if c = singleQuote then quoteCount s + 1
    else quoteCount s

/-- `altstr_count`. -/
def altstrCount (s : List Byte) : Nat := quoteCount s / 2

/-- `altstr_prepare`. -/
def altstrPrepare (s : List Byte) : List Byte :=
  s.flatMap fun c => if c = singleQuote then [backslash, c] else [c]

/-- The loop of `altstr_get`. -/
def altstrRead : List Byte → List Byte
  | [] => []
  | c :: s =>
    if c = singleQuote then []
    else if c = backslash then
      match s with
      | [] => []
      | e :: s => e :: altstrRead s
    else c :: altstrRead s

/-- `altstr_get`. -/
def altstrGet (s : List Byte) (num : Int) : List Byte :=
  match afterQuote s (num * 2 + 1) with
  | some start => altstrRead (s.drop start)
  | none => []

/-- `altstr_set`. -/
def altstrSet (s : List Byte) (num : Int) (value : List Byte) : List Byte :=
  let range := match afterQuote s (num * 2 + 1) with
    | some start => (start, closingQuote s start)
    | none => (s.length, s.length)
  s.take range.1 ++ value ++ s.drop range.2

/-- Text without an unescaped quote, which does not end inside an escape. -/
inductive Bare : List Byte → Prop where
  | nil : Bare []
  | plain {c : Byte} {s : List Byte} : c ≠ backslash → c ≠ singleQuote → Bare s → Bare (c :: s)
  | escape {c : Byte} {s : List Byte} : Bare s → Bare (backslash :: c :: s)

/-- Text that ends just after its `n`-th unescaped quote. -/
inductive Quotes : Nat → List Byte → Prop where
  | zero : Quotes 0 []
  | succ {n : Nat} {w s : List Byte} : Bare w → Quotes n s → Quotes (n + 1) (w ++ singleQuote :: s)

variable {s t w pre value : List Byte} {n seen i : Nat}

/-! ## What the scans do -/

/-- Text without quotes is passed over. -/
lemma afterQuoteFrom_bare (h : Bare w) (n seen i : Nat) (s : List Byte) :
    afterQuoteFrom n seen i (w ++ s) = afterQuoteFrom n seen (i + w.length) s := by
  induction h generalizing i with
  | nil => rfl
  | plain other bare _ ih =>
    rw [List.cons_append, afterQuoteFrom.eq_def]
    dsimp only
    rw [if_neg other, if_neg bare, ih, List.length_cons, Nat.add_right_comm, Nat.add_assoc]
  | escape _ ih =>
    rw [List.cons_append, List.cons_append, afterQuoteFrom, if_pos rfl, ih, List.length_cons,
      List.length_cons]
    congr 1
    omega

/-- A quote is counted. -/
lemma afterQuoteFrom_quote (n seen i : Nat) (s : List Byte) :
    afterQuoteFrom n seen i (singleQuote :: s)
      = if seen + 1 = n then some (i + 1) else afterQuoteFrom n (seen + 1) (i + 1) s := by
  rw [afterQuoteFrom.eq_def]
  dsimp only
  rw [if_neg (by decide), if_pos rfl]

/-- The closing quote is the first one. -/
lemma closingQuoteFrom_bare (h : Bare w) (i : Nat) (s : List Byte) :
    closingQuoteFrom i (w ++ singleQuote :: s) = some (i + w.length) := by
  induction h generalizing i with
  | nil =>
    rw [List.nil_append, closingQuoteFrom.eq_def]
    dsimp only
    rw [if_neg (by decide), if_pos rfl, List.length_nil, Nat.add_zero]
  | plain other bare _ ih =>
    rw [List.cons_append, closingQuoteFrom.eq_def]
    dsimp only
    rw [if_neg other, if_neg bare, ih, List.length_cons, Nat.add_right_comm, Nat.add_assoc]
  | escape _ ih =>
    rw [List.cons_append, List.cons_append, closingQuoteFrom, if_pos rfl, ih, List.length_cons,
      List.length_cons]
    congr 1
    omega

/-- Text without quotes adds no quotes. -/
lemma quoteCount_bare (h : Bare w) (s : List Byte) : quoteCount (w ++ s) = quoteCount s := by
  induction h with
  | nil => rfl
  | plain other bare _ ih =>
    rw [List.cons_append, quoteCount.eq_def]
    dsimp only
    rw [if_neg other, if_neg bare, ih]
  | escape _ ih => rw [List.cons_append, List.cons_append, quoteCount, if_pos rfl, ih]

/-- A quote adds one. -/
lemma quoteCount_quote (s : List Byte) : quoteCount (singleQuote :: s) = quoteCount s + 1 := by
  rw [quoteCount.eq_def]
  dsimp only
  rw [if_neg (by decide), if_pos rfl]

/-- Reading ends at a quote. -/
lemma altstrRead_quote (s : List Byte) : altstrRead (singleQuote :: s) = [] := by
  rw [altstrRead.eq_def]
  dsimp only
  rw [if_pos rfl]

/-- A byte that is no quote and no backslash is read. -/
lemma altstrRead_plain {c : Byte} (other : c ≠ backslash) (bare : c ≠ singleQuote) (s : List Byte) :
    altstrRead (c :: s) = c :: altstrRead s := by
  rw [altstrRead.eq_def]
  dsimp only
  rw [if_neg bare, if_neg other]

/-- A byte behind a backslash is read. -/
lemma altstrRead_escape (c : Byte) (s : List Byte) :
    altstrRead (backslash :: c :: s) = c :: altstrRead s := by
  rw [altstrRead, if_neg (by decide), if_pos rfl]

/-- What is read of text up to a quote does not depend on what follows. -/
lemma altstrRead_bare (h : Bare w) (s t : List Byte) :
    altstrRead (w ++ singleQuote :: s) = altstrRead (w ++ singleQuote :: t) := by
  induction h with
  | nil => rw [List.nil_append, List.nil_append, altstrRead_quote, altstrRead_quote]
  | plain other bare _ ih =>
    rw [List.cons_append, List.cons_append, altstrRead_plain other bare, altstrRead_plain other bare, ih]
  | escape _ ih =>
    rw [List.cons_append, List.cons_append, List.cons_append, List.cons_append, altstrRead_escape,
      altstrRead_escape, ih]

/-! ## Cutting text at its quotes -/

/-- Text with a quote can be cut at the first. -/
lemma cut_at_quote (s : List Byte) (some : 0 < quoteCount s) :
    ∃ w t, Bare w ∧ s = w ++ singleQuote :: t := by
  induction s using quoteCount.induct with
  | case1 => exact absurd some (Nat.lt_irrefl 0)
  | case2 => exact absurd some (Nat.lt_irrefl 0)
  | case3 c s ih =>
    rw [quoteCount, if_pos rfl] at some
    obtain ⟨w, t, bare, rfl⟩ := ih some
    exact ⟨backslash :: c :: w, t, .escape bare, rfl⟩
  | case4 s => exact ⟨[], s, .nil, rfl⟩
  | case5 c s other bare ih =>
    rw [quoteCount.eq_def] at some
    dsimp only at some
    rw [if_neg other, if_neg bare] at some
    obtain ⟨w, t, h, rfl⟩ := ih some
    exact ⟨c :: w, t, .plain other bare h, rfl⟩

/-- The quotes of a beginning and of the rest. -/
lemma Quotes.count (h : Quotes n pre) (s : List Byte) :
    quoteCount (pre ++ s) = n + quoteCount s := by
  induction h with
  | zero => exact (Nat.zero_add _).symm
  | succ bare _ ih =>
    rw [List.append_assoc, List.cons_append, quoteCount_bare bare, quoteCount_quote, ih]
    exact Nat.add_right_comm _ _ _

/-- Text with so many quotes can be cut after them. -/
lemma quotes_of_le (s : List Byte) (le : n ≤ quoteCount s) : ∃ pre t, Quotes n pre ∧ s = pre ++ t := by
  induction n generalizing s with
  | zero => exact ⟨[], s, .zero, rfl⟩
  | succ n ih =>
    obtain ⟨w, t, bare, rfl⟩ := cut_at_quote s (by omega)
    rw [quoteCount_bare bare, quoteCount_quote] at le
    obtain ⟨pre, t, h, rfl⟩ := ih t (by omega)
    refine ⟨w ++ singleQuote :: pre, t, .succ bare h, ?_⟩
    rw [List.append_assoc]
    rfl

/-- A bare text and a quote add one quote. -/
lemma Quotes.snoc (h : Quotes n pre) (bare : Bare w) :
    Quotes (n + 1) (pre ++ (w ++ [singleQuote])) := by
  induction h with
  | zero => exact .succ bare .zero
  | succ first _ ih =>
    rw [List.append_assoc]
    exact .succ first ih

/-- Cutting after fewer quotes. -/
lemma Quotes.split {m : Nat} (h : Quotes (n + m) pre) :
    ∃ a b, Quotes n a ∧ Quotes m b ∧ pre = a ++ b := by
  induction n generalizing pre with
  | zero => exact ⟨[], pre, .zero, by rw [Nat.zero_add] at h; exact h, rfl⟩
  | succ n ih =>
    rw [Nat.add_right_comm] at h
    cases h with
    | @succ _ w s bare h =>
      obtain ⟨a, b, first, second, rfl⟩ := ih h
      refine ⟨w ++ singleQuote :: a, b, .succ bare first, second, ?_⟩
      rw [List.append_assoc]
      rfl

/-- A beginning with too few quotes is passed over. -/
lemma Quotes.after {m : Nat} (h : Quotes m pre) (lt : seen + m < n) (i : Nat) (t : List Byte) :
    afterQuoteFrom n seen i (pre ++ t) = afterQuoteFrom n (seen + m) (i + pre.length) t := by
  induction h generalizing seen i with
  | zero => rfl
  | succ bare _ ih =>
    rw [List.append_assoc, List.cons_append, afterQuoteFrom_bare bare, afterQuoteFrom_quote,
      if_neg (by omega), ih (by omega), List.length_append, List.length_cons]
    congr 1
    · omega
    · omega

/-- The scan stops after the last of the quotes. -/
lemma Quotes.found {m : Nat} (h : Quotes (m + 1) pre) (i : Nat) (t : List Byte) :
    afterQuoteFrom (seen + (m + 1)) seen i (pre ++ t) = some (i + pre.length) := by
  obtain ⟨a, b, first, last, rfl⟩ := h.split (n := m)
  cases last with
  | @succ _ w s bare none =>
    cases none
    rw [List.append_assoc, first.after (by omega), List.append_assoc, afterQuoteFrom_bare bare,
      List.cons_append, afterQuoteFrom_quote, if_pos (Nat.add_assoc _ _ _), List.length_append,
      List.length_append]
    congr 1
    simp only [List.length_cons, List.length_nil]
    omega

/-- The search does not depend on where counting starts. -/
lemma afterQuoteFrom_shift (n seen i k : Nat) (s : List Byte) :
    afterQuoteFrom n seen (k + i) s = (afterQuoteFrom n seen i s).map (k + ·) := by
  induction s using quoteCount.induct generalizing seen i with
  | case1 => rfl
  | case2 => rfl
  | case3 c s ih =>
    rw [afterQuoteFrom, afterQuoteFrom, if_pos rfl, if_pos rfl, Nat.add_assoc]
    exact ih seen (i + 2)
  | case4 s _ ih =>
    rw [afterQuoteFrom_quote, afterQuoteFrom_quote]
    split
    next => rfl
    next =>
      rw [Nat.add_assoc]
      exact ih (seen + 1) (i + 1)
  | case5 c s other bare ih =>
    rw [afterQuoteFrom.eq_def, afterQuoteFrom.eq_def n seen i]
    dsimp only
    rw [if_neg other, if_neg bare, if_neg other, if_neg bare, Nat.add_assoc]
    exact ih seen (i + 1)

/-! ## Reading and replacing strings -/

/-- The string after the quotes in front of it. -/
lemma altstrGet_found {k : Nat} (h : Quotes (2 * k + 1) pre) (s : List Byte) :
    altstrGet (pre ++ s) k = altstrRead s := by
  have number : ((k : Int) * 2 + 1).toNat = 0 + (2 * k + 1) := by omega
  have found : afterQuote (pre ++ s) ((k : Int) * 2 + 1) = some pre.length := by
    unfold afterQuote
    rw [if_neg (by omega), number, h.found, Nat.zero_add]
  unfold altstrGet
  rw [found]
  dsimp only
  rw [List.drop_left]

/-- A string behind some quotes is found from there. -/
lemma altstrGet_behind {m k : Nat} (h : Quotes m pre) (lt : m < 2 * k + 1) (s : List Byte) :
    altstrGet (pre ++ s) k = (afterQuoteFrom (2 * k + 1) m 0 s).elim [] fun p => altstrRead (s.drop p) := by
  have number : ((k : Int) * 2 + 1).toNat = 2 * k + 1 := by omega
  unfold altstrGet afterQuote
  rw [if_neg (by omega), number, h.after (by omega), Nat.zero_add, Nat.zero_add,
    ← Nat.add_zero pre.length, afterQuoteFrom_shift]
  cases afterQuoteFrom (2 * k + 1) m 0 s with
  | none => rfl
  | some p =>
    show altstrRead ((pre ++ s).drop (pre.length + p)) = altstrRead (s.drop p)
    rw [List.drop_length_add_append]

/-- Where a string is replaced. -/
lemma altstrSet_found {k : Nat} (h : Quotes (2 * k + 1) pre) (bare : Bare w) (s value : List Byte) :
    altstrSet (pre ++ (w ++ singleQuote :: s)) k value = pre ++ (value ++ singleQuote :: s) := by
  have number : ((k : Int) * 2 + 1).toNat = 0 + (2 * k + 1) := by omega
  have found : afterQuote (pre ++ (w ++ singleQuote :: s)) ((k : Int) * 2 + 1) = some pre.length := by
    unfold afterQuote
    rw [if_neg (by omega), number, h.found, Nat.zero_add]
  have closes : closingQuote (pre ++ (w ++ singleQuote :: s)) pre.length = pre.length + w.length := by
    unfold closingQuote
    rw [List.drop_left, closingQuoteFrom_bare bare]
    rfl
  unfold altstrSet
  rw [found]
  dsimp only
  rw [closes, List.take_left, List.drop_length_add_append, List.drop_left, List.append_assoc]

/-- The other strings do not depend on what stands in the place of one. -/
lemma altstrGet_other {i : Nat} {w' : List Byte} {j : Int} (before : Quotes (2 * i + 1) pre)
    (bare : Bare w) (bare' : Bare w') (s : List Byte) (ne : j ≠ i) :
    altstrGet (pre ++ (w' ++ singleQuote :: s)) j = altstrGet (pre ++ (w ++ singleQuote :: s)) j := by
  have cut (u : List Byte) :
      pre ++ (u ++ singleQuote :: s) = pre ++ (u ++ [singleQuote]) ++ s := by
    rw [List.append_assoc, List.append_assoc]
    rfl
  rcases Int.lt_or_le j 0 with negative | nonneg
  · have none (u : List Byte) : altstrGet u j = [] := by
      unfold altstrGet afterQuote
      rw [if_pos (by omega)]
    rw [none, none]
  · obtain ⟨k, rfl⟩ := Int.eq_ofNat_of_zero_le nonneg
    rcases Nat.lt_or_ge k i with lt | ge
    · -- The string ends before the place.
      obtain ⟨m, rfl⟩ : ∃ m, i = k + 1 + m := ⟨i - (k + 1), by omega⟩
      have parts : 2 * (k + 1 + m) + 1 = 2 * k + 1 + (2 * m + 1 + 1) := by omega
      rw [parts] at before
      obtain ⟨a, b, first, second, rfl⟩ := before.split
      cases second with
      | @succ _ u t bareFirst _ =>
        have read (x : List Byte) : altstrGet (a ++ (u ++ singleQuote :: t) ++ x) k
            = altstrRead (u ++ singleQuote :: (t ++ x)) := by
          rw [List.append_assoc, List.append_assoc, List.cons_append, altstrGet_found first]
        rw [read, read]
        exact altstrRead_bare bareFirst _ _
    · have gt : 2 * i + 1 + 1 < 2 * k + 1 := by omega
      rw [cut, cut, altstrGet_behind (before.snoc bare') gt, altstrGet_behind (before.snoc bare) gt]

/-! ## Prepared values -/

/-- A byte other than a backslash is read as itself. -/
lemma altstrRead_prepared {c : Byte} (other : c ≠ backslash) (v s : List Byte) :
    altstrRead (altstrPrepare (c :: v) ++ s) = c :: altstrRead (altstrPrepare v ++ s) := by
  unfold altstrPrepare
  rw [List.flatMap_cons]
  split
  next => exact altstrRead_escape _ _
  next bare => exact altstrRead_plain other bare _

/-- A backslash stays as it is. -/
lemma altstrPrepare_backslash (v : List Byte) :
    altstrPrepare (backslash :: v) = backslash :: altstrPrepare v := by
  unfold altstrPrepare
  rw [List.flatMap_cons, if_neg (by decide)]
  rfl

/-- A value without a backslash has no quote left. -/
lemma bare_altstrPrepare {v : List Byte} (plain : backslash ∉ v) : Bare (altstrPrepare v) := by
  induction v with
  | nil => exact .nil
  | cons c v ih =>
    have rest := ih (List.not_mem_of_not_mem_cons plain)
    unfold altstrPrepare
    rw [List.flatMap_cons]
    split
    next => exact .escape rest
    next bare => exact .plain (List.ne_of_not_mem_cons plain).symm bare rest

/-- A value without a backslash is read as it was. -/
lemma altstrRead_altstrPrepare {v : List Byte} (plain : backslash ∉ v) (s : List Byte) :
    altstrRead (altstrPrepare v ++ singleQuote :: s) = v := by
  induction v with
  | nil => exact altstrRead_quote s
  | cons c v ih =>
    rw [altstrRead_prepared (List.ne_of_not_mem_cons plain).symm,
      ih (List.not_mem_of_not_mem_cons plain)]

/-- What is read of a value with a backslash falls behind the value by a byte for each escape; `k` is
how far it is behind. -/
lemma altstrRead_ne {v s : List Byte} {k : Nat}
    (e : altstrRead (altstrPrepare v ++ singleQuote :: s) = List.replicate k backslash ++ v) :
    k = 0 ∧ backslash ∉ v := by
  have other {c : Byte} {v : List Byte} {k : Nat} (ne : c ≠ backslash)
      (ih : ∀ k, altstrRead (altstrPrepare v ++ singleQuote :: s) = List.replicate k backslash ++ v →
        k = 0 ∧ backslash ∉ v)
      (e : altstrRead (altstrPrepare (c :: v) ++ singleQuote :: s)
        = List.replicate k backslash ++ c :: v) : k = 0 ∧ backslash ∉ c :: v := by
    rw [altstrRead_prepared ne] at e
    cases k with
    | zero =>
      refine ⟨rfl, List.not_mem_cons_of_ne_of_not_mem ne.symm (ih 0 ?_).2⟩
      exact (List.cons.inj e).2
    | succ k => exact absurd (List.cons.inj e).1 ne
  have empty {k : Nat} (e : altstrRead (altstrPrepare [] ++ singleQuote :: s)
      = List.replicate k backslash ++ []) : k = 0 ∧ backslash ∉ [] := by
    have none : altstrRead (altstrPrepare [] ++ singleQuote :: s) = [] := altstrRead_quote s
    rw [none, List.append_nil] at e
    cases k with
    | zero => exact ⟨rfl, List.not_mem_nil⟩
    | succ k => cases e
  have push (k : Nat) (v : List Byte) : List.replicate k backslash ++ backslash :: v
      = backslash :: (List.replicate k backslash ++ v) := by
    induction k with
    | zero => rfl
    | succ k ih => rw [List.replicate_succ, List.cons_append, ih, List.cons_append]
  induction v using List.twoStepInduction generalizing k with
  | nil => exact empty e
  | singleton c =>
    by_cases escape : c = backslash
    · -- The backslash escapes the closing quote.
      subst escape
      rw [altstrPrepare_backslash, push] at e
      have read : altstrRead (backslash :: singleQuote :: s) = singleQuote :: altstrRead s :=
        altstrRead_escape _ _
      exact absurd (List.cons.inj (read.symm.trans e)).1 (by decide)
    · exact other escape (fun _ => empty) e
  | cons_cons c d v ih ih' =>
    by_cases escape : c = backslash
    · subst escape
      rw [altstrPrepare_backslash, push] at e
      by_cases again : d = backslash
      · -- The first backslash escapes the second.
        subst again
        rw [altstrPrepare_backslash, push] at e
        have read := altstrRead_escape backslash (altstrPrepare v ++ singleQuote :: s)
        have behind := (List.cons.inj (read.symm.trans e)).2
        exact absurd (@ih (k + 1) behind).1 (Nat.succ_ne_zero k)
      · by_cases quote : d = singleQuote
        · -- It escapes the backslash in front of the quote, which then closes the string.
          subst quote
          have read : altstrRead (backslash :: backslash :: singleQuote ::
              (altstrPrepare v ++ singleQuote :: s)) = [backslash] := by
            rw [altstrRead_escape, altstrRead_quote]
          have short := congrArg List.length (read.symm.trans e)
          rw [List.length_cons, List.length_cons, List.length_append, List.length_cons,
            List.length_nil] at short
          omega
        · -- It is lost in front of another byte.
          have prepared : altstrPrepare (d :: v) = d :: altstrPrepare v := by
            unfold altstrPrepare
            rw [List.flatMap_cons, if_neg quote]
            rfl
          rw [prepared] at e
          have read := altstrRead_escape d (altstrPrepare v ++ singleQuote :: s)
          exact absurd (List.cons.inj (read.symm.trans e)).1 again
    · exact other escape (fun _ => ih' d) e

/-! ## The law -/

/-- Storing a prepared value in an alt string reads back the value if and only if it has no backslash; a
prepared value that neither has an unescaped quote nor ends inside an escape, as that of a value without
a backslash, leaves the number of strings and all others as they were. -/
theorem altstr_stores {s : List Byte} {i : Nat} (lt : i < altstrCount s) (v : List Byte) :
    (altstrGet (altstrSet s i (altstrPrepare v)) i = v ↔ backslash ∉ v) ∧
      (backslash ∉ v → Bare (altstrPrepare v)) ∧
      (Bare (altstrPrepare v) → altstrCount (altstrSet s i (altstrPrepare v)) = altstrCount s ∧
        ∀ j : Int, j ≠ i → altstrGet (altstrSet s i (altstrPrepare v)) j = altstrGet s j) := by
  unfold altstrCount at lt
  obtain ⟨whole, rest, quotes, rfl⟩ := quotes_of_le (n := 2 * i + 1 + 1) s (by omega)
  obtain ⟨pre, last, before, closing, rfl⟩ := quotes.split
  cases closing with
  | @succ _ w t bare none =>
    cases none
    have cut : pre ++ (w ++ [singleQuote]) ++ rest = pre ++ (w ++ singleQuote :: rest) := by
      rw [List.append_assoc, List.append_assoc]
      rfl
    rw [cut, altstrSet_found before bare]
    refine ⟨?_, bare_altstrPrepare, fun bareValue => ⟨?_, fun j ne => ?_⟩⟩
    · rw [altstrGet_found before]
      exact ⟨fun e => (@altstrRead_ne v rest 0 e).2, fun plain => altstrRead_altstrPrepare plain rest⟩
    · unfold altstrCount
      rw [before.count, before.count, quoteCount_bare bare, quoteCount_bare bareValue]
    · exact altstrGet_other before bare bareValue rest ne

/-- The second of `'one' 'two'` becomes `it's`. -/
theorem altstr_stores_its :
    altstrGet (altstrSet (ascii "'one' 'two'") 1 (altstrPrepare (ascii "it's"))) 1 = ascii "it's" ∧
      altstrGet (altstrSet (ascii "'one' 'two'") 1 (altstrPrepare (ascii "it's"))) 0
        = altstrGet (ascii "'one' 'two'") 0 :=
  have law := altstr_stores (s := ascii "'one' 'two'") (i := 1) (by decide +kernel) (ascii "it's")
  ⟨law.1.mpr (by decide +kernel), (law.2.2 (law.2.1 (by decide +kernel))).2 0 (by decide +kernel)⟩

/-- A backslash is not escaped: that of `a\b` is lost, and one at the end of the value swallows the
quote that closes the string. -/
theorem altstr_loses_backslash :
    altstrGet (altstrSet (ascii "'' 'c'") 0 (altstrPrepare (ascii "a\\b"))) 0 = ascii "ab" ∧
      ascii "ab" ≠ ascii "a\\b" ∧
      altstrCount (altstrSet (ascii "'' 'c'") 0 (altstrPrepare (ascii "a\\"))) = 1 ∧
      altstrCount (ascii "'' 'c'") = 2 ∧
      altstrGet (altstrSet (ascii "'' 'c'") 0 (altstrPrepare (ascii "a\\"))) 1
        ≠ altstrGet (ascii "'' 'c'") 1 := by
  decide +kernel

end Qcvm.Stdlib

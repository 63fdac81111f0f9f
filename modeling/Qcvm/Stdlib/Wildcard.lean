import Mathlib.Data.List.Forall2
import Qcvm.Stdlib.Charset
import Qcvm.Stdlib.Tokenize

/-!
# Wildcards

`wildcmp` of `stdlib/strbuf.rs` computes, one row for each byte of the pattern, which beginnings of
the string the pattern so far matches. `Denotes` says what a pattern means: a way to cut the string
into one piece for each byte of the pattern. The row of a `*` follows from what the last byte of a
string adds to that meaning (`denotes_star_snoc`).
-/

namespace Qcvm.Stdlib

open Lib

def questionMark : Byte := 63

/-- `u8::eq_ignore_ascii_case`. -/
def eqIgnoreAsciiCase (a b : Byte) : Bool := asciiLower a == asciiLower b

/-- A separator, which `*` does not pass. -/
def isSeparator (c : Byte) : Bool := c = slash || c = backslash

/-- The row of a `*` from position 1 on; `run` is what it has at the position before. -/
def starRun (run : Bool) : List Byte → List Bool → List Bool
  | c :: s, here :: ok =>
    (here || (run && !isSeparator c)) :: starRun (here || (run && !isSeparator c)) s ok
  | _, _ => []

/-- The row of a `*` over a string. -/
def starRow (s : List Byte) : List Bool → List Bool
  | here :: ok => here :: starRun here s ok
  | [] => []

/-- Whether a byte of the pattern other than `*` takes a byte of the string. -/
def takesByte (p c : Byte) : Bool := p = questionMark || eqIgnoreAsciiCase p c

/-- The row of a byte other than `*`. -/
def byteRow (p : Byte) (s : List Byte) (ok : List Bool) : List Bool :=
  false :: List.zipWith (fun before c => before && takesByte p c) ok s

/-- The next row. -/
def nextRow (s : List Byte) (ok : List Bool) (p : Byte) : List Bool :=
  if p = star then starRow s ok else byteRow p s ok

/-- `wildcmp`: `?` matches any one byte, `*` any run of bytes other than the separators, and
letters compare without case. -/
def wildcmp (pattern s : List Byte) : Bool :=
  (pattern.foldl (nextRow s) (true :: List.replicate s.length false)).getLast?.getD false

/-! ## What a pattern means -/

/-- The bytes of the string that one byte of the pattern takes. -/
def Takes (p : Byte) (piece : List Byte) : Prop :=
  if p = questionMark then piece.length = 1
  else if p = star then ∀ c ∈ piece, c ≠ slash ∧ c ≠ backslash
  else ∃ c, piece = [c] ∧ asciiLower p = asciiLower c

/-- The string can be cut into pieces that the bytes of the pattern take. -/
def Denotes (pattern s : List Byte) : Prop :=
  ∃ pieces, List.Forall₂ Takes pattern pieces ∧ pieces.flatten = s

variable {pattern s t : List Byte} {p c : Byte} {ok : List Bool} {b : Bool}

/-- The empty pattern denotes the empty string. -/
lemma denotes_nil : Denotes [] s ↔ s = [] := by
  constructor
  · rintro ⟨pieces, taken, rfl⟩
    cases taken
    rfl
  · rintro rfl
    exact ⟨[], .nil, rfl⟩

/-- The last piece is taken by the last byte of the pattern. -/
lemma pieces_snoc {pieces : List (List Byte)} (h : List.Forall₂ Takes (pattern ++ [p]) pieces) :
    ∃ front piece, pieces = front ++ [piece] ∧ List.Forall₂ Takes pattern front ∧ Takes p piece := by
  induction pattern generalizing pieces with
  | nil =>
    cases h with
    | cons taken rest =>
      cases rest
      exact ⟨[], _, rfl, .nil, taken⟩
  | cons q pattern ih =>
    cases h with
    | cons first rest =>
      obtain ⟨front, piece, rfl, before, taken⟩ := ih rest
      exact ⟨_ :: front, piece, rfl, .cons first before, taken⟩

/-- The last byte of the pattern takes an end of the string. -/
lemma denotes_snoc :
    Denotes (pattern ++ [p]) s ↔ ∃ front piece, s = front ++ piece ∧
      Denotes pattern front ∧ Takes p piece := by
  constructor
  · rintro ⟨pieces, taken, rfl⟩
    obtain ⟨front, piece, rfl, before, last⟩ := pieces_snoc taken
    refine ⟨front.flatten, piece, ?_, ⟨front, before, rfl⟩, last⟩
    rw [List.flatten_append, List.flatten_cons, List.flatten_nil, List.append_nil]
  · rintro ⟨front, piece, rfl, ⟨pieces, taken, rfl⟩, last⟩
    refine ⟨pieces ++ [piece], List.rel_append taken (.cons last .nil), ?_⟩
    rw [List.flatten_append, List.flatten_cons, List.flatten_nil, List.append_nil]

/-- A star takes what has no separator. -/
lemma takes_star {piece : List Byte} :
    Takes star piece ↔ ∀ c ∈ piece, isSeparator c = false := by
  have differs : star ≠ questionMark := by decide
  unfold Takes isSeparator
  rw [if_neg differs, if_pos rfl]
  simp

/-- Any other byte takes one byte. -/
lemma takes_byte {piece : List Byte} (h : p ≠ star) :
    Takes p piece ↔ ∃ c, piece = [c] ∧ takesByte p c = true := by
  unfold Takes takesByte eqIgnoreAsciiCase
  split_ifs with any
  · simp [any, List.length_eq_one_iff]
  · simp [any]

/-- A `*` at the end of the pattern takes nothing, or the last byte with what it took before. -/
lemma denotes_star_nil : Denotes (pattern ++ [star]) [] ↔ Denotes pattern [] := by
  rw [denotes_snoc]
  constructor
  · rintro ⟨front, piece, split, before, -⟩
    obtain ⟨rfl, -⟩ := List.append_eq_nil_iff.mp split.symm
    exact before
  · intro before
    exact ⟨[], [], rfl, before, takes_star.mpr (by simp)⟩

/-- A star at the end takes nothing, or one more byte. -/
lemma denotes_star_snoc :
    Denotes (pattern ++ [star]) (s ++ [c]) ↔ Denotes pattern (s ++ [c]) ∨
      Denotes (pattern ++ [star]) s ∧ isSeparator c = false := by
  constructor
  · intro h
    obtain ⟨front, piece, split, before, taken⟩ := denotes_snoc.mp h
    rw [takes_star] at taken
    rcases List.eq_nil_or_concat piece with rfl | ⟨run, d, rfl⟩
    · rw [List.append_nil] at split
      exact Or.inl (split ▸ before)
    · rw [List.concat_eq_append, ← List.append_assoc] at split
      obtain ⟨rfl, same⟩ := List.append_inj' split rfl
      obtain rfl := List.singleton_inj.mp same
      refine Or.inr ⟨denotes_snoc.mpr ⟨front, run, rfl, before, takes_star.mpr ?_⟩, ?_⟩
      · intro e mem
        exact taken e (by simp [mem])
      · exact taken c (by simp)
  · rintro (here | ⟨h, passed⟩)
    · exact denotes_snoc.mpr ⟨s ++ [c], [], (List.append_nil _).symm, here,
        takes_star.mpr (by simp)⟩
    · obtain ⟨front, piece, rfl, before, taken⟩ := denotes_snoc.mp h
      refine denotes_snoc.mpr ⟨front, piece ++ [c], List.append_assoc .., before, ?_⟩
      rw [takes_star] at taken ⊢
      intro e mem
      rcases List.mem_append.mp mem with old | new
      · exact taken e old
      · rw [List.mem_singleton.mp new]
        exact passed

/-- Any other byte takes exactly the last byte. -/
lemma not_denotes_byte_nil (h : p ≠ star) : ¬ Denotes (pattern ++ [p]) [] := by
  rw [denotes_snoc]
  rintro ⟨front, piece, split, -, taken⟩
  obtain ⟨d, rfl, -⟩ := (takes_byte h).mp taken
  simp at split

/-- A byte at the end takes the last byte. -/
lemma denotes_byte_snoc (h : p ≠ star) :
    Denotes (pattern ++ [p]) (s ++ [c]) ↔ Denotes pattern s ∧ takesByte p c = true := by
  rw [denotes_snoc]
  constructor
  · rintro ⟨front, piece, split, before, taken⟩
    obtain ⟨d, rfl, equal⟩ := (takes_byte h).mp taken
    obtain ⟨rfl, same⟩ := List.append_inj' split rfl
    obtain rfl := List.singleton_inj.mp same
    exact ⟨before, equal⟩
  · rintro ⟨before, equal⟩
    exact ⟨s, [c], rfl, before, (takes_byte h).mpr ⟨c, rfl, equal⟩⟩

/-! ## The rows -/

/-- A row: for each way to lengthen `t` by bytes of `s`, whether the pattern matches. -/
inductive Row (pattern : List Byte) : List Byte → List Byte → List Bool → Prop where
  | last {t : List Byte} {b : Bool} : (b = true ↔ Denotes pattern t) → Row pattern t [] [b]
  | next {t s : List Byte} {c : Byte} {b : Bool} {ok : List Bool} :
    (b = true ↔ Denotes pattern t) → Row pattern (t ++ [c]) s ok → Row pattern t (c :: s) (b :: ok)

/-- A star's row, from one of its entries on. -/
lemma row_starRun {run : Bool} (h : Row pattern t s (b :: ok))
    (here : run = true ↔ Denotes (pattern ++ [star]) t) :
    Row (pattern ++ [star]) t s (run :: starRun run s ok) := by
  induction s generalizing t b ok run with
  | nil =>
    cases h with
    | last => exact .last here
  | cons c s ih =>
    cases h with
    | next _ rest =>
      cases ok with
      | nil => cases rest
      | cons b' ok =>
        refine .next here (ih rest ?_)
        have meaning : b' = true ↔ Denotes pattern (t ++ [c]) := by
          cases rest with
          | last same => exact same
          | next same _ => exact same
        rw [denotes_star_snoc, ← here, ← meaning]
        simp

/-- The row of a pattern with a star at the end. -/
lemma row_starRow (h : Row pattern [] s ok) : Row (pattern ++ [star]) [] s (starRow s ok) := by
  cases ok with
  | nil => cases h
  | cons b ok =>
    refine row_starRun h ?_
    rw [denotes_star_nil]
    cases h with
    | last same => exact same
    | next same _ => exact same

/-- A byte's row, from one of its entries on. -/
lemma row_zipWith {first : Bool} (h : Row pattern t s ok) (other : p ≠ star)
    (here : first = true ↔ Denotes (pattern ++ [p]) t) :
    Row (pattern ++ [p]) t s
      (first :: List.zipWith (fun before c => before && takesByte p c) ok s) := by
  induction h generalizing first with
  | last _ => exact .last here
  | next same _ ih =>
    refine .next here (ih ?_)
    rw [denotes_byte_snoc other, ← same, Bool.and_eq_true]

/-- The row of a pattern with one byte more. -/
lemma row_nextRow (h : Row pattern [] s ok) : Row (pattern ++ [p]) [] s (nextRow s ok p) := by
  unfold nextRow
  split_ifs with wild
  · subst wild
    exact row_starRow h
  · refine row_zipWith h wild ?_
    constructor
    · intro impossible
      cases impossible
    · intro taken
      exact absurd taken (not_denotes_byte_nil wild)

/-- The empty pattern denotes no beginning that is not empty. -/
lemma row_replicate : Row [] (t ++ [c]) s (List.replicate (s.length + 1) false) := by
  have never {u : List Byte} (long : u ≠ []) : false = true ↔ Denotes [] u := by
    rw [denotes_nil]
    simp [long]
  induction s generalizing t c with
  | nil => exact .last (never (by simp))
  | cons d s ih => exact .next (never (by simp)) ih

/-- The row of the empty pattern. -/
lemma row_first : Row [] [] s (true :: List.replicate s.length false) := by
  have whole : true = true ↔ Denotes [] [] := by
    rw [denotes_nil]
    simp
  cases s with
  | nil => exact .last whole
  | cons c s => exact .next whole (row_replicate (t := []))

/-- The row of a pattern with more bytes. -/
lemma row_foldl {rest : List Byte} (h : Row pattern [] s ok) :
    Row (pattern ++ rest) [] s (rest.foldl (nextRow s) ok) := by
  induction rest generalizing pattern ok with
  | nil =>
    rw [List.append_nil]
    exact h
  | cons p rest ih =>
    rw [List.append_cons]
    exact ih (row_nextRow h)

/-- The last entry of a row is about the whole string. -/
lemma Row.getLast (h : Row pattern t s ok) :
    ok.getLast?.getD false = true ↔ Denotes pattern (t ++ s) := by
  induction h with
  | last same =>
    rw [List.append_nil]
    exact same
  | @next t s c b ok _ rest ih =>
    rw [List.append_cons, ← ih]
    cases rest with
    | last => rfl
    | next => rfl

/-- The comparison succeeds exactly when the string can be cut as the pattern says. -/
theorem wildcmp_denotes (pattern s : List Byte) :
    wildcmp pattern s = true ↔ Denotes pattern s :=
  (@row_foldl [] _ _ _ row_first).getLast

end Qcvm.Stdlib

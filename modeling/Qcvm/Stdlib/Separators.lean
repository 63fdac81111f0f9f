import Qcvm.Stdlib.Coverage

/-!
# Splitting at separators

The tokens of `splitBy` and the separators between them tile the string (`splitBy_lossless`): a gap
is the first separator that matches where a token stops, and none matches inside a token. The tokens
from a position on are read by `Alternates`, whose constructors are the two ways the loop ends a
token.
-/

namespace Qcvm.Stdlib

open Lib

/-- A separator that is not empty stands at `i`. -/
def MatchesAt (s sep : List Byte) (i : Nat) : Prop := sep ≠ [] ∧ sep <+: s.drop i

/-- The first separator, in the order of the arguments, that stands at `i`. -/
def FirstMatch (s : List Byte) (seps : List (List Byte)) (i : Nat) (sep : List Byte) : Prop :=
  ∃ pre post, seps = pre ++ sep :: post ∧ MatchesAt s sep i ∧ ∀ other ∈ pre, ¬MatchesAt s other i

/-- No separator stands anywhere in the range. -/
def Unseparated (s : List Byte) (seps : List (List Byte)) (p e : Nat) : Prop :=
  ∀ i, p ≤ i → i < e → ∀ sep ∈ seps, ¬MatchesAt s sep i

/-- The tokens and the gaps between them make up the string. -/
structure Lossless (s : List Byte) (seps : List (List Byte)) (list : List Token)
    (gaps : List (List Byte)) : Prop where
  count : list.length = gaps.length + 1
  first : list.head?.map Token.start = some 0
  last : list.getLast?.map Token.stop = some s.length
  text : ∀ t ∈ list, t.start ≤ t.stop ∧ t.stop ≤ s.length ∧ t.text = s.extract t.start t.stop
  inside : ∀ t ∈ list, Unseparated s seps t.start t.stop
  gap : ∀ k sep, gaps[k]? = some sep → ∃ t u, list[k]? = some t ∧ list[k + 1]? = some u ∧
    u.start = t.stop + sep.length ∧ s.extract t.stop u.start = sep ∧ FirstMatch s seps t.stop sep

/-- The tokens and gaps from `p` on. -/
inductive Alternates (s : List Byte) (seps : List (List Byte)) :
    Nat → List Token → List (List Byte) → Prop
  | last {p : Nat} : p ≤ s.length → Unseparated s seps p s.length →
      Alternates s seps p [⟨s.extract p s.length, p, s.length⟩] []
  | gap {p e : Nat} {sep : List Byte} {list : List Token} {gaps : List (List Byte)} :
      p ≤ e → Unseparated s seps p e → FirstMatch s seps e sep →
      Alternates s seps (e + sep.length) list gaps →
      Alternates s seps p (⟨s.extract p e, p, e⟩ :: list) (sep :: gaps)

variable {s sep : List Byte} {seps gaps : List (List Byte)} {start p e i : Nat} {list : List Token}
  {t : Token}

/-! ## What the loop finds -/

/-- A separator matches where it is a beginning of the rest. -/
lemma matchesAt_iff : (!sep.isEmpty && sep.isPrefixOf (s.drop i)) = true ↔ MatchesAt s sep i := by
  rw [Bool.and_eq_true, List.isPrefixOf_iff_prefix, Bool.not_eq_true', List.isEmpty_eq_false_iff]
  exact Iff.rfl

/-- A separator that matches lies in the string. -/
lemma MatchesAt.lt (h : MatchesAt s sep i) : i + sep.length ≤ s.length ∧ 0 < sep.length := by
  have pos := List.length_pos_iff.mpr h.1
  have fits := h.2.length_le
  rw [List.length_drop] at fits
  exact ⟨by omega, pos⟩

/-- A separator that matches is the text there. -/
lemma MatchesAt.extract (h : MatchesAt s sep i) : s.extract i (i + sep.length) = sep := by
  rw [List.extract_eq_take_drop, Nat.add_sub_cancel_left]
  exact (List.prefix_iff_eq_take.mp h.2).symm

/-- The first separator that matches does match. -/
lemma FirstMatch.here (h : FirstMatch s seps i sep) : MatchesAt s sep i := by
  obtain ⟨_, _, _, here, _⟩ := h
  exact here

/-- A separator that is found is the first that matches. -/
lemma firstMatch_of_separator (h : separator s seps i = some sep) : FirstMatch s seps i sep := by
  obtain ⟨here, pre, post, split, before⟩ := List.find?_eq_some_iff_append.mp h
  refine ⟨pre, post, split, matchesAt_iff.mp here, ?_⟩
  intro other mem match_
  have fails := before other mem
  rw [matchesAt_iff.mpr match_] at fails
  cases fails

/-- Where no separator is found none matches. -/
lemma no_match_of_separator (h : separator s seps i = none) : ∀ sep ∈ seps, ¬MatchesAt s sep i := by
  intro sep mem match_
  exact List.find?_eq_none.mp h sep mem (matchesAt_iff.mpr match_)

/-- The pieces alternate with separators. -/
lemma alternates_piecesFrom (le : start ≤ p) (bound : p ≤ s.length)
    (passed : Unseparated s seps start p) :
    ∃ gaps, Alternates s seps start (piecesFrom s seps start p) gaps := by
  fun_induction piecesFrom s seps start p with
  | case1 start p rest sep found ih =>
    have first := firstMatch_of_separator found
    obtain ⟨gaps, alternates⟩ := ih le_rfl first.here.lt.1 fun i low high =>
      absurd (Nat.lt_of_le_of_lt low high) (Nat.lt_irrefl _)
    exact ⟨sep :: gaps, .gap le passed first alternates⟩
  | case2 start p rest found ih =>
    refine ih (Nat.le_succ_of_le le) rest fun i low high => ?_
    rcases Nat.lt_or_eq_of_le (Nat.le_of_lt_succ high) with before | rfl
    · exact passed i low before
    · exact no_match_of_separator found
  | case3 start p done =>
    obtain rfl : p = s.length := le_antisymm bound (Nat.not_lt.mp done)
    exact ⟨[], .last le passed⟩

/-! ## What the tokens and gaps are -/

namespace Alternates

/-- There is a piece more than there are separators. -/
lemma count (h : Alternates s seps p list gaps) : list.length = gaps.length + 1 := by
  induction h with
  | last => rfl
  | gap _ _ _ _ ih => rw [List.length_cons, List.length_cons, ih]

/-- The first piece starts where the splitting does. -/
lemma first (h : Alternates s seps p list gaps) : list.head?.map Token.start = some p := by
  cases h with
  | last => rfl
  | gap => rfl

/-- The last piece ends the string. -/
lemma last_stop (h : Alternates s seps p list gaps) :
    list.getLast?.map Token.stop = some s.length := by
  induction h with
  | last => rfl
  | gap _ _ _ rest ih =>
    cases rest with
    | last => exact ih
    | gap => exact ih

/-- The splitting starts in the string. -/
lemma start_le (h : Alternates s seps p list gaps) : p ≤ s.length := by
  induction h with
  | last bound _ => exact bound
  | gap le _ _ _ ih => exact le.trans ((Nat.le_add_right _ _).trans ih)

/-- A piece is the text of its range. -/
lemma text (h : Alternates s seps p list gaps) (mem : t ∈ list) :
    t.start ≤ t.stop ∧ t.stop ≤ s.length ∧ t.text = s.extract t.start t.stop := by
  induction h with
  | last bound _ =>
    rw [List.mem_singleton.mp mem]
    exact ⟨bound, le_rfl, rfl⟩
  | gap le _ _ rest ih =>
    cases mem with
    | head => exact ⟨le, (Nat.le_add_right _ _).trans rest.start_le, rfl⟩
    | tail _ mem => exact ih mem

/-- No separator matches inside a piece. -/
lemma inside (h : Alternates s seps p list gaps) (mem : t ∈ list) :
    Unseparated s seps t.start t.stop := by
  induction h with
  | last _ free =>
    rw [List.mem_singleton.mp mem]
    exact free
  | gap _ free _ _ ih =>
    cases mem with
    | head => exact free
    | tail _ mem => exact ih mem

/-- Between two pieces stands a separator. -/
lemma gap_at {k : Nat} (h : Alternates s seps p list gaps) (here : gaps[k]? = some sep) :
    ∃ t u, list[k]? = some t ∧ list[k + 1]? = some u ∧ u.start = t.stop + sep.length ∧
      s.extract t.stop u.start = sep ∧ FirstMatch s seps t.stop sep := by
  induction h generalizing k with
  | last => cases here
  | gap _ _ first rest ih =>
    cases k with
    | zero =>
      cases here
      obtain ⟨u, head, start⟩ := Option.map_eq_some_iff.mp rest.first
      refine ⟨_, u, rfl, ?_, start, ?_, first⟩
      · rw [List.getElem?_cons_succ, ← List.head?_eq_getElem?]
        exact head
      · rw [start]
        exact first.here.extract
    | succ k =>
      obtain ⟨t, u, at_, next, rest⟩ := ih here
      exact ⟨t, u, at_, next, rest⟩

/-- What the tokens cost: each but the last is followed by a gap that takes a byte. -/
lemma total_le (h : Alternates s seps p list gaps) :
    Budget.total list ≤ (s.length - p + 1) * (tokenBytes * 2) + (s.length - p) := by
  have bytes : tokenBytes * 2 = 80 := rfl
  induction h with
  | last =>
    rw [Budget.total_cons, Budget.total_nil, Budget.cost, List.extract_eq_take_drop,
      List.length_take, List.length_drop, bytes]
    omega
  | @gap p e sep list gaps le free first rest ih =>
    have long := first.here.lt
    have text : (s.extract p e).length = e - p := by
      rw [List.extract_eq_take_drop, List.length_take, List.length_drop]
      omega
    rw [Budget.total_cons, Budget.cost, text]
    rw [bytes] at ih ⊢
    omega

/-- Tokens and gaps that alternate from the start make up the string. -/
lemma lossless (h : Alternates s seps 0 list gaps) : Lossless s seps list gaps where
  count := h.count
  first := h.first
  last := h.last_stop
  text _ mem := h.text mem
  inside _ mem := h.inside mem
  gap _ _ here := h.gap_at here

end Alternates

/-- With a budget that is large enough, nothing of the string is lost: the tokens and the gaps tile
it, each gap is the first separator that stands there, none stands inside a token, and a string that
is not empty has one token more than gaps. -/
theorem splitBy_lossless (s : List Byte) (seps : List (List Byte)) :
    ∃ unbounded, ∀ m, unbounded ≤ m →
      (splitBy s seps (.new m)).2.exceeded = false ∧
      (s = [] → (splitBy s seps (.new m)).1 = []) ∧
      (s ≠ [] → ∃ gaps, Lossless s seps (splitBy s seps (.new m)).1 gaps) := by
  have passed : Unseparated s seps 0 0 := fun i _ high => absurd high (Nat.not_lt_zero i)
  obtain ⟨gaps, alternates⟩ := alternates_piecesFrom le_rfl (Nat.zero_le s.length) passed
  refine ⟨(s.length - 0 + 1) * (tokenBytes * 2) + (s.length - 0), fun m le => ?_⟩
  obtain ⟨all, kept⟩ := Budget.fit_of_total_le (b := .new m) rfl (alternates.total_le.trans le)
  rw [splitBy_eq]
  split_ifs with empty
  · exact ⟨rfl, fun _ => rfl, fun some => absurd empty some⟩
  · rw [all]
    exact ⟨kept, fun none => absurd none empty, fun _ => ⟨gaps, alternates.lossless⟩⟩

end Qcvm.Stdlib

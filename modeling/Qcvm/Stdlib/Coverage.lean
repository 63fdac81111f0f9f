import Qcvm.Stdlib.Tokenize

/-!
# What the tokenizer covers

The tokens of `split` have non-empty ranges that follow each other inside the string, and between
them lies white space only. After the last token there may be comments: `Comment` says what a
comment is and `Gap` what white space and whole comments make up. Since every budget's list is a
prefix of the unlimited one (`Budget.fit_prefix`), the ranges of every list are in order.
-/

namespace Qcvm.Stdlib

open Lib

/-! ## What a budget pays for -/

namespace Budget

variable {b : Budget} {list : List Token} {t : Token}

/-- The storage a list is charged for. -/
def total (list : List Token) : Nat := (list.map fun t => cost t.text).sum

@[simp] lemma total_nil : total [] = 0 := rfl

@[simp] lemma total_cons : total (t :: list) = cost t.text + total list := by
  simp [total]

/-- Tokens that cost at most so much cost at most that many times it. -/
lemma total_le {k : Nat} (h : ∀ t ∈ list, cost t.text ≤ k) : total list ≤ list.length * k := by
  induction list with
  | nil => exact Nat.zero_le _
  | cons t list ih =>
    rw [total_cons, List.length_cons, Nat.succ_mul, Nat.add_comm]
    exact Nat.add_le_add (ih fun u mem => h u (List.mem_cons_of_mem t mem)) (h t List.mem_cons_self)

/-- A token that is paid for takes its cost from the budget. -/
lemma take_paid (h : (b.take t.text).1 = true) :
    b.exceeded = false ∧ (b.take t.text).2.exceeded = false ∧
      (b.take t.text).2.left + cost t.text = b.left := by
  unfold take at h ⊢
  split_ifs at h ⊢ with room
  exact ⟨room.2, room.2, Nat.sub_add_cancel room.1⟩

/-- A token that is refused exceeds the budget, which is kept. -/
lemma take_refused (h : ¬(b.take t.text).1 = true) :
    (b.take t.text).2.exceeded = true ∧ (b.take t.text).2.left = b.left ∧
      (b.exceeded = false → b.left < cost t.text) := by
  unfold take at h ⊢
  split_ifs at h ⊢ with room
  · exact absurd rfl h
  · exact ⟨rfl, rfl, fun fresh => Nat.not_le.mp fun fits => room ⟨fits, fresh⟩⟩

/-- The tokens that fit are the first ones. -/
lemma fit_prefix : (b.fit list).1 <+: list := by
  induction list generalizing b with
  | nil => exact List.prefix_rfl
  | cons t list ih =>
    by_cases paid : (b.take t.text).1 = true
    · rw [fit_cons paid]
      exact List.prefix_cons_inj t |>.mpr ih
    · rw [fit_cons_refused paid]
      exact List.nil_prefix

/-- The budget is marked exceeded exactly when it cuts the list short. -/
lemma fit_exceeded (fresh : b.exceeded = false) :
    (b.fit list).2.exceeded = true ↔ (b.fit list).1 ≠ list := by
  induction list generalizing b with
  | nil => simp [fresh]
  | cons t list ih =>
    by_cases paid : (b.take t.text).1 = true
    · rw [fit_cons paid]
      simpa using ih (take_paid paid).2.1
    · rw [fit_cons_refused paid]
      simp [(take_refused paid).1]

/-- The list that fits and what is left add up to the budget. -/
lemma fit_total : total (b.fit list).1 + (b.fit list).2.left = b.left := by
  induction list generalizing b with
  | nil => simp
  | cons t list ih =>
    by_cases paid : (b.take t.text).1 = true
    · rw [fit_cons paid]
      have rest := ih (b := (b.take t.text).2)
      have here := (take_paid paid).2.2
      simp only [total_cons]
      omega
    · rw [fit_cons_refused paid]
      simp [(take_refused paid).2.1]

/-- A budget that covers the whole list is not exceeded. -/
lemma fit_of_total_le (fresh : b.exceeded = false) (h : total list ≤ b.left) :
    (b.fit list).1 = list ∧ (b.fit list).2.exceeded = false := by
  induction list generalizing b with
  | nil => exact ⟨rfl, fresh⟩
  | cons t list ih =>
    rw [total_cons] at h
    by_cases paid : (b.take t.text).1 = true
    · obtain ⟨-, still, left⟩ := take_paid paid
      obtain ⟨all, kept⟩ := ih still (by omega)
      rw [fit_cons paid]
      exact ⟨by rw [all], kept⟩
    · have short := (take_refused paid).2.2 fresh
      omega

end Budget

/-! ## Comments and gaps -/

/-- `s[a, b)` is a whole comment: a line comment up to the end of its line or, outside QuakeC mode,
a block comment, closed or not. -/
inductive Comment (s : List Byte) (qc : Bool) : Nat → Nat → Prop
  | line {a b : Nat} : s[a]? = some slash → s[a + 1]? = some slash →
      (∀ i, a ≤ i → i < b → s[i]? ≠ some newline) → (b = s.length ∨ s[b]? = some newline) →
      Comment s qc a b
  | block {a k : Nat} : qc = false → s[a]? = some slash → s[a + 1]? = some star →
      s[a + 2 + k]? = some star → s[a + 2 + k + 1]? = some slash →
      (∀ i < k, ¬(s[a + 2 + i]? = some star ∧ s[a + 2 + i + 1]? = some slash)) →
      Comment s qc a (a + 2 + k + 2)
  | unclosed {a : Nat} : qc = false → s[a]? = some slash → s[a + 1]? = some star →
      (∀ i, ¬(s[a + 2 + i]? = some star ∧ s[a + 2 + i + 1]? = some slash)) →
      Comment s qc a s.length

/-- `s[a, b)` consists of white space and whole comments. -/
inductive Gap (s : List Byte) (qc : Bool) : Nat → Nat → Prop
  | empty {a : Nat} : Gap s qc a a
  | white {a b : Nat} {c : Byte} : s[a]? = some c → c ≤ space → Gap s qc (a + 1) b → Gap s qc a b
  | comment {a m b : Nat} : Comment s qc a m → Gap s qc m b → Gap s qc a b

/-- Where the last token of a list ends, `p` without one. -/
def lastStop : Nat → List Token → Nat
  | p, [] => p
  | _, t :: list => lastStop t.stop list

/-- Byte `i` is in the range of one of the tokens. -/
def InToken (list : List Token) (i : Nat) : Prop := ∃ t ∈ list, t.start ≤ i ∧ i < t.stop

/-- Byte `i` is in a comment that only white space and comments separate from `p`. -/
def InComment (s : List Byte) (qc : Bool) (p i : Nat) : Prop :=
  ∃ a b, Gap s qc p a ∧ Comment s qc a b ∧ a ≤ i ∧ i < b

section Gaps

variable {s : List Byte} {qc : Bool} {p m e i : Nat}

/-- Gaps in sequence are a gap. -/
lemma Gap.trans (first : Gap s qc p m) (second : Gap s qc m e) : Gap s qc p e := by
  induction first with
  | empty => exact second
  | white here small _ ih => exact .white here small (ih second)
  | comment here _ ih => exact .comment here (ih second)

/-- A comment behind a gap is one behind its start. -/
lemma InComment.after (gap : Gap s qc p m) (h : InComment s qc m i) : InComment s qc p i := by
  obtain ⟨a, b, rest, comment, low, high⟩ := h
  exact ⟨a, b, gap.trans rest, comment, low, high⟩

/-- What is skipped for being white is a gap. -/
lemma gap_skipWhile {q : Byte → Bool} (small : ∀ c, q c = true → c ≤ space) (h : p ≤ s.length) :
    Gap s qc p (skipWhile q s p) := by
  have run (n : Nat) (within : p + n ≤ skipWhile q s p) : Gap s qc p (p + n) := by
    induction n with
    | zero => exact .empty
    | succ n ih =>
      have here : p + n < s.length := Nat.lt_of_lt_of_le within (skipWhile_le h)
      have passed := small _ (passed_of_lt_skipWhile (Nat.le_add_right p n) within
        (List.getElem?_eq_getElem here))
      exact (ih (Nat.le_of_succ_le within)).trans
        (.white (List.getElem?_eq_getElem here) passed .empty)
  obtain ⟨n, same⟩ := Nat.exists_eq_add_of_le (le_skipWhile (q := q) (s := s) (p := p))
  rw [same]
  exact run n same.ge

/-- White space is at most a space. -/
lemma white_small {c : Byte} (h : white c = true) : c ≤ space := of_decide_eq_true h

/-- A blank is at most a space. -/
lemma blank_small {c : Byte} (h : blank c = true) : c ≤ space := by
  unfold blank at h
  rw [Bool.and_eq_true] at h
  exact white_small h.1

/-- A comment without an end has no star with a slash after it. -/
lemma closing_none {r : List Byte} (h : closing r = none) (i : Nat) :
    ¬(r[i]? = some star ∧ r[i + 1]? = some slash) := by
  fun_induction closing r generalizing i with
  | case1 a b rest here => cases h
  | case2 a b rest elsewhere ih =>
    cases i with
    | zero =>
      rintro ⟨isStar, isSlash⟩
      exact elsewhere ⟨Option.some.inj isStar, Option.some.inj isSlash⟩
    | succ i => exact ih (Option.map_eq_none_iff.mp h) i
  | case3 r short =>
    rintro ⟨isStar, isSlash⟩
    cases r with
    | nil => cases isStar
    | cons a rest =>
      cases rest with
      | nil => cases isSlash
      | cons b rest => exact short a b rest rfl

/-- What the tokenizer passes as a comment is one. -/
lemma comment_of_commentEnd (h : commentEnd s qc p = some e) : Comment s qc p e := by
  unfold commentEnd at h
  split_ifs at h with line block
  · cases h
    refine .line line.1 line.2 (fun i low high here => ?_) ?_
    · have passed := passed_of_lt_skipWhile low high here
      exact absurd passed (by decide)
    · have inside := skipWhile_le (q := (· != newline)) (lt_of_some line.1).le
      cases stopped : s[skipWhile (· != newline) s p]? with
      | none =>
        rw [List.getElem?_eq_none_iff] at stopped
        exact Or.inl (le_antisymm inside stopped)
      | some c =>
        have fails := stopped_skipWhile stopped
        simp only [bne_eq_false_iff_eq] at fails
        rw [fails]
        exact Or.inr rfl
  · cases found : closing (s.drop (p + 2)) with
    | none =>
      rw [found] at h
      cases h
      have never := closing_none found
      simp only [List.getElem?_drop] at never
      exact .unclosed block.1 block.2.1 block.2.2 never
    | some k =>
      rw [found] at h
      cases h
      obtain ⟨first, second, before⟩ := closing_lt found
      simp only [List.getElem?_drop] at first second before
      exact .block block.1 block.2.1 block.2.2 first second before

/-- A byte that `skipBlank` passes is white or in a comment. -/
lemma passed_skipBlank {c : Byte} (bound : p ≤ s.length) (low : p ≤ i)
    (high : i < skipBlank s qc p) (here : s[i]? = some c) : c ≤ space ∨ InComment s qc p i := by
  fun_induction skipBlank s qc p with
  | case1 p e found ih =>
    have comment := comment_of_commentEnd found
    have gap : Gap s qc p (skipWhile blank s p) := gap_skipWhile (fun _ => blank_small) bound
    by_cases before : i < skipWhile blank s p
    · exact Or.inl (blank_small (passed_of_lt_skipWhile low before here))
    · by_cases inside : i < e
      · exact Or.inr ⟨_, e, gap, comment, Nat.not_lt.mp before, inside⟩
      · cases ih (commentEnd_pos found).2 (Nat.not_lt.mp inside) high with
        | inl small => exact Or.inl small
        | inr later => exact Or.inr (later.after (gap.trans (.comment comment .empty)))
  | case2 p found => exact Or.inl (blank_small (passed_of_lt_skipWhile low high here))

end Gaps

/-! ## The unlimited list -/

section Unlimited

variable {s : List Byte} {qc : Bool} {p : Nat}

/-- The lists that reading tokens from `p` on yields, up to where only a gap is left. -/
inductive ReadsTokens (s : List Byte) (qc : Bool) : Nat → List Token → Prop
  | done {p : Nat} : p ≤ s.length → s.length ≤ skipWhile white s p → ReadsTokens s qc p []
  | rest {p : Nat} : p ≤ s.length → parseToken s (skipWhile white s p) qc = none →
      ReadsTokens s qc p []
  | token {p e : Nat} {text : List Byte} {list : List Token} : p ≤ s.length →
      parseToken s (skipWhile white s p) qc = some (text, e) → ReadsTokens s qc e list →
      ReadsTokens s qc p (⟨text, skipWhile white s p, e⟩ :: list)

/-- The tokens from a position on are a reading of the string. -/
lemma readsTokens_tokensFrom (h : p ≤ s.length) : ReadsTokens s qc p (tokensFrom s qc p) := by
  fun_induction tokensFrom s qc p with
  | case1 p empty => exact .done h empty
  | case2 p _ found => exact .rest h found
  | case3 p _ text e found ih => exact .token h found (ih (parseToken_pos (skipWhile_le h) found).2)

/-- The ranges from `p` on follow each other inside the string. -/
lemma ReadsTokens.ranges {list : List Token} (h : ReadsTokens s qc p list) :
    (∀ t ∈ list, p ≤ t.start ∧ t.start < t.stop ∧ t.stop ≤ s.length) ∧
      list.Pairwise fun t u => t.stop ≤ u.start := by
  induction h with
  | done => exact ⟨fun t mem => absurd mem List.not_mem_nil, List.Pairwise.nil⟩
  | rest => exact ⟨fun t mem => absurd mem List.not_mem_nil, List.Pairwise.nil⟩
  | @token p e text list bound found _ ih =>
    obtain ⟨inside, apart⟩ := ih
    obtain ⟨low, high⟩ := parseToken_pos (skipWhile_le bound) found
    have skipped : p ≤ skipWhile white s p := le_skipWhile
    constructor
    · intro t mem
      cases mem with
      | head => exact ⟨skipped, low, high⟩
      | tail _ mem =>
        obtain ⟨after, nonempty, bound⟩ := inside t mem
        exact ⟨by omega, nonempty, bound⟩
    · exact List.Pairwise.cons (fun u mem => (inside u mem).1) apart

/-- Every byte from `p` on is in a token, white, or in a comment after the last token. -/
lemma ReadsTokens.covered {list : List Token} {i : Nat} {c : Byte} (h : ReadsTokens s qc p list)
    (low : p ≤ i) (here : s[i]? = some c) :
    InToken list i ∨ c ≤ space ∨ InComment s qc (lastStop p list) i := by
  induction h generalizing i with
  | @done p bound empty =>
    have before : i < skipWhile white s p := Nat.lt_of_lt_of_le (lt_of_some here) empty
    exact Or.inr (Or.inl (white_small (passed_of_lt_skipWhile low before here)))
  | @rest p bound none =>
    right
    have done : s.length ≤ skipBlank s qc (skipWhile white s p) := by
      rw [parseToken, Option.map_eq_none_iff] at none
      exact List.getElem?_eq_none_iff.mp none
    by_cases before : i < skipWhile white s p
    · exact Or.inl (white_small (passed_of_lt_skipWhile low before here))
    · have passed := @passed_skipBlank _ qc _ _ _ (skipWhile_le bound) (Nat.not_lt.mp before)
        (Nat.lt_of_lt_of_le (lt_of_some here) done) here
      exact passed.imp_right (.after (gap_skipWhile (fun _ => white_small) bound))
  | @token p e text list bound found _ ih =>
    by_cases before : i < skipWhile white s p
    · exact Or.inr (Or.inl (white_small (passed_of_lt_skipWhile low before here)))
    · by_cases inside : i < e
      · exact Or.inl ⟨_, List.mem_cons_self, Nat.not_lt.mp before, inside⟩
      · refine (ih (Nat.not_lt.mp inside) here).imp_left ?_
        rintro ⟨t, mem, range⟩
        exact ⟨t, List.mem_cons_of_mem _ mem, range⟩

/-- The tokens of a reading are at most `TOKEN_MAX` bytes long. -/
lemma ReadsTokens.text {list : List Token} {t : Token} (h : ReadsTokens s qc p list)
    (mem : t ∈ list) : t.text.length ≤ tokenMax := by
  induction h with
  | done => cases mem
  | rest => cases mem
  | @token p _ _ _ _ found _ ih =>
    cases mem with
    | head =>
      obtain ⟨c, -, same⟩ := Option.map_eq_some_iff.mp found
      have short := @readToken_length s qc (skipBlank s qc (skipWhile white s p)) c
      rwa [same] at short
    | tail _ mem => exact ih mem

/-- Each token takes a byte, so the list is no longer than the string. -/
lemma ReadsTokens.length_le {list : List Token} (h : ReadsTokens s qc p list) :
    list.length + p ≤ s.length := by
  induction h with
  | done bound _ => simpa using bound
  | rest bound _ => simpa using bound
  | @token p e text list bound found _ ih =>
    have moved := (parseToken_pos (skipWhile_le bound) found).1
    have skipped : p ≤ skipWhile white s p := le_skipWhile
    simp only [List.length_cons]
    omega

end Unlimited

/-- A budget that no token list of `s` exceeds. -/
def enough (s : List Byte) : Nat := s.length * (tokenBytes * 2 + tokenMax)

/-- The tokens of a reading cost no more than is enough. -/
lemma ReadsTokens.total_le {s : List Byte} {qc : Bool} {list : List Token}
    (h : ReadsTokens s qc 0 list) : Budget.total list ≤ enough s := by
  have each : ∀ t ∈ list, Budget.cost t.text ≤ tokenBytes * 2 + tokenMax := fun t mem =>
    Nat.add_le_add_left (h.text mem) _
  exact (Budget.total_le each).trans (Nat.mul_le_mul_right _ h.length_le)

/-- For every string, mode and budget, the token ranges are non-empty, in order, apart and inside
the string, and no text is longer than `tokenMax`. Some budget is enough: from there on nothing is
exceeded and every byte is in a token, white, or in a comment after the last token; and every budget
gives a prefix of that list, a proper one exactly when the budget is marked exceeded. -/
theorem split_covers (s : List Byte) (qc : Bool) (n : Nat) :
    ((∀ t ∈ (split s qc (.new n)).1,
        t.start < t.stop ∧ t.stop ≤ s.length ∧ t.text.length ≤ 65535) ∧
      (split s qc (.new n)).1.Pairwise fun t u => t.stop ≤ u.start) ∧
    ∃ unbounded, ∀ m, unbounded ≤ m →
      (split s qc (.new m)).2.exceeded = false ∧
      (∀ i c, s[i]? = some c → InToken (split s qc (.new m)).1 i ∨ c ≤ 0x20 ∨
        InComment s qc (lastStop 0 (split s qc (.new m)).1) i) ∧
      (split s qc (.new n)).1 <+: (split s qc (.new m)).1 ∧
      ((split s qc (.new n)).2.exceeded = true ↔
        (split s qc (.new n)).1 ≠ (split s qc (.new m)).1) := by
  have reads : ReadsTokens s qc 0 (tokensFrom s qc 0) := readsTokens_tokensFrom (Nat.zero_le _)
  have part : ((Budget.new n).fit (tokensFrom s qc 0)).1 <+: tokensFrom s qc 0 := Budget.fit_prefix
  obtain ⟨inside, apart⟩ := reads.ranges
  simp only [split_eq]
  refine ⟨⟨fun t mem => ?_, apart.sublist part.sublist⟩, enough s, fun m le => ?_⟩
  · have whole := part.subset mem
    exact ⟨(inside t whole).2.1, (inside t whole).2.2, reads.text whole⟩
  · obtain ⟨all, kept⟩ := Budget.fit_of_total_le (b := .new m) rfl (reads.total_le.trans le)
    rw [all]
    exact ⟨kept, fun i c here => reads.covered (Nat.zero_le i) here, part, Budget.fit_exceeded rfl⟩

end Qcvm.Stdlib

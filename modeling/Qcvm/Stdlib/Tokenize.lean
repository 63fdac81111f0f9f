import Qcvm.Num
import Qcvm.Lib.Scan

/-!
# The tokenizer

The token readers of `stdlib/tokenize.rs` over a byte string. Positions in a string and sizes of
what is in memory are far from `usize::MAX`, so `saturating_add` and `saturating_mul` on them are
plain addition and multiplication of natural numbers.

The budget only cuts the list short: `split` is `Budget.fit`, the longest affordable prefix, of the
list an unlimited budget gives (`split_eq`), and `splitBy` likewise. What a token's range and text
look like and what lies between two tokens is then said of the unlimited list.
-/

namespace Qcvm

open Lib

namespace Stdlib

/-- One token: its text and the byte range of the input it was read from. -/
structure Token where
  text : List Byte
  start : Nat
  stop : Nat
  deriving Repr, DecidableEq

/-- `size_of::<Token>()`. -/
def tokenBytes : Nat := 40

/-! ## The budget -/

/-- How much storage a token list being built may still take. -/
structure Budget where
  left : Nat
  /-- A token did not fit: the list is incomplete. -/
  exceeded : Bool
  deriving Repr, DecidableEq

namespace Budget

/-- `Budget::new`. -/
def new (bytes : Nat) : Budget := ⟨bytes, false⟩

/-- The storage a token with this text costs, counting the list's growth slack. -/
def cost (text : List Byte) : Nat := tokenBytes * 2 + text.length

/-- `Budget::take`. -/
def take (b : Budget) (text : List Byte) : Bool × Budget :=
  if cost text ≤ b.left ∧ b.exceeded = false then (true, { b with left := b.left - cost text })
  else (false, { b with exceeded := true })

/-- The longest prefix of a list that a budget pays for. -/
def fit (b : Budget) : List Token → List Token × Budget
  | [] => ([], b)
  | t :: list =>
    if (b.take t.text).1 then
      (t :: ((b.take t.text).2.fit list).1, ((b.take t.text).2.fit list).2)
    else ([], (b.take t.text).2)

end Budget

/-! ## Characters -/

def newline : Byte := 10
def carriageReturn : Byte := 13
def space : Byte := 32
def doubleQuote : Byte := 34
def singleQuote : Byte := 39
def star : Byte := 42
def slash : Byte := 47
def backslash : Byte := 92

/-- Longest token of the 64 KiB token buffer (a longer word continues as the next token). -/
def tokenMax : Nat := 65535

/-- Longest C-string token. -/
def cstringMax : Nat := 65534

/-- Characters that are tokens by themselves in QuakeC mode: a newline, the brackets, the single
quote and `: , ;`. -/
def isSingle (c : Byte) : Bool := c ∈ [newline, 123, 125, 40, 41, 91, 93, singleQuote, 58, 44, 59]

/-- `char::to_digit(16)`. -/
def hexDigit (c : Byte) : Option Byte :=
  if 48 ≤ c ∧ c ≤ 57 then some (c - 48)
  else if 97 ≤ c ∧ c ≤ 102 then some (c - 87)
  else if 65 ≤ c ∧ c ≤ 70 then some (c - 55)
  else none

/-! ## The token forms -/

/-- The digits of a hexadecimal escape, at most `n` of them. -/
def hexEscape (s : List Byte) : Nat → Byte → Nat → Byte × Nat
  | 0, v, p => (v, p)
  | n + 1, v, p =>
    match s[p]?.bind hexDigit with
    | none => (v, p)
    | some d => hexEscape s n (v <<< 4 ||| d) (p + 1)

/-- The character that the escape letter `e` stands for, and the position after it. -/
def escape (s : List Byte) (e : Byte) (p : Nat) : Byte × Nat :=
  if e = 110 then (newline, p)
  else if e = 116 then (9, p)
  else if e = 114 then (carriageReturn, p)
  else if e = 120 then hexEscape s 2 0 p
  else if e = 36 ∨ e = backslash ∨ e = singleQuote then (e, p)
  else (63, p)

/-- A character of a C string: a quote or a NUL ends it. -/
def emit (c : Byte × Nat) : Read Byte :=
  if c.1 = doubleQuote ∨ c.1 = 0 then ⟨[], c.2, false⟩ else ⟨[c.1], c.2, true⟩

/-- One turn of the loop of `parse_cstring`. -/
def cstringRead (s : List Byte) (p : Nat) : Read Byte :=
  match s[p]? with
  | none => ⟨[], s.length, false⟩
  | some c =>
    if c = backslash then
      match s[p + 1]? with
      | none => ⟨[], s.length, false⟩
      | some e =>
        if e = carriageReturn ∨ e = newline then
          ⟨[], if e = carriageReturn ∧ s[p + 2]? = some newline then p + 3 else p + 2, true⟩
        else if e = doubleQuote then ⟨[doubleQuote], p + 2, true⟩
        else emit (escape s e (p + 2))
    else emit (c, p + 1)

/-- One turn of the loop over a quoted token: a doubled quote is a literal quote. -/
def quotedRead (s : List Byte) (quote : Byte) (p : Nat) : Read Byte :=
  match s[p]? with
  | none => ⟨[], s.length, false⟩
  | some d =>
    if d = quote then
      if s[p + 1]? = some quote then ⟨[d], p + 2, true⟩ else ⟨[], p + 1, false⟩
    else ⟨[d], p + 1, true⟩

/-- Whether a word goes on with this character. -/
def inWord (qc : Bool) (c : Byte) : Bool := decide (space < c) && !(qc && isSingle c)

/-- One turn of the loop over a plain word. -/
def wordRead (s : List Byte) (qc : Bool) (p : Nat) : Read Byte :=
  ⟨[s[p]?.getD 0], p + 1, s[p + 1]?.any (inWord qc)⟩

section Positions

variable {s : List Byte} {p : Nat} {c : Byte}

/-- A position with a byte lies in the string. -/
lemma lt_of_some (h : s[p]? = some c) : p < s.length := by
  obtain ⟨bound, -⟩ := List.getElem?_eq_some_iff.mp h
  exact bound

/-- A hexadecimal escape goes forward, and not past the end. -/
lemma hexEscape_pos {n : Nat} {v : Byte} (h : p ≤ s.length) :
    p ≤ (hexEscape s n v p).2 ∧ (hexEscape s n v p).2 ≤ s.length := by
  induction n generalizing v p with
  | zero => exact ⟨le_rfl, h⟩
  | succ n ih =>
    cases digit : s[p]?.bind hexDigit with
    | none =>
      simp only [hexEscape, digit]
      exact ⟨le_rfl, h⟩
    | some d =>
      simp only [hexEscape, digit]
      obtain ⟨c, here, -⟩ := Option.bind_eq_some_iff.mp digit
      obtain ⟨low, high⟩ := ih (v := v <<< 4 ||| d) (p := p + 1) (lt_of_some here)
      exact ⟨by omega, high⟩

/-- An escape goes forward, and not past the end. -/
lemma escape_pos {e : Byte} (h : p ≤ s.length) :
    p ≤ (escape s e p).2 ∧ (escape s e p).2 ≤ s.length := by
  have plain (c : Byte) : p ≤ (c, p).2 ∧ (c, p).2 ≤ s.length := ⟨le_rfl, h⟩
  unfold escape
  split_ifs
  · exact plain _
  · exact plain _
  · exact plain _
  · exact hexEscape_pos h
  · exact plain _
  · exact plain _

@[simp] lemma emit_pos (c : Byte × Nat) : (emit c).pos = c.2 := by
  unfold emit
  split <;> rfl

/-- A turn at a byte of the string moves on inside the string. -/
lemma cstringRead_pos (h : s[p]? = some c) :
    p < (cstringRead s p).pos ∧ (cstringRead s p).pos ≤ s.length := by
  have inside := lt_of_some h
  simp only [cstringRead, h]
  split_ifs with escaped
  · cases letter : s[p + 1]? with
    | none => exact ⟨inside, le_rfl⟩
    | some e =>
      have next := lt_of_some letter
      dsimp only
      split_ifs with continued crlf quote
      · have third := lt_of_some crlf.2
        exact ⟨Nat.lt_add_of_pos_right Nat.succ_pos', third⟩
      · exact ⟨Nat.lt_add_of_pos_right Nat.succ_pos', next⟩
      · exact ⟨Nat.lt_add_of_pos_right Nat.succ_pos', next⟩
      · rw [emit_pos]
        obtain ⟨low, high⟩ := escape_pos (s := s) (e := e) (p := p + 2) next
        exact ⟨by omega, high⟩
  · rw [emit_pos]
    exact ⟨Nat.lt_succ_self p, inside⟩

/-- A byte read between quotes goes forward, and not past the end. -/
lemma quotedRead_pos {quote : Byte} (h : s[p]? = some c) :
    p < (quotedRead s quote p).pos ∧ (quotedRead s quote p).pos ≤ s.length := by
  have inside := lt_of_some h
  simp only [quotedRead, h]
  split_ifs with closing doubled
  · have next := lt_of_some doubled
    exact ⟨Nat.lt_add_of_pos_right Nat.succ_pos', next⟩
  · exact ⟨Nat.lt_succ_self p, inside⟩
  · exact ⟨Nat.lt_succ_self p, inside⟩

/-- A word goes on only inside the string. -/
lemma wordRead_pos {qc : Bool} (h : (wordRead s qc p).more = true) : p + 1 < s.length := by
  cases next : s[p + 1]? with
  | none =>
    simp only [wordRead, next, Option.any_none] at h
    cases h
  | some c => exact lt_of_some next

/-- The scanner of a C string. -/
def cstringScanner (s : List Byte) : Scanner s where
  read := cstringRead s
  forward p more := by
    cases here : s[p]? with
    | none =>
      simp only [cstringRead, here] at more
      cases more
    | some c => exact cstringRead_pos here
  single p := by
    unfold cstringRead emit
    repeat' split
    all_goals simp

/-- The scanner of a quoted token. -/
def quotedScanner (s : List Byte) (quote : Byte) : Scanner s where
  read := quotedRead s quote
  forward p more := by
    cases here : s[p]? with
    | none =>
      simp only [quotedRead, here] at more
      cases more
    | some c => exact quotedRead_pos here
  single p := by
    unfold quotedRead
    repeat' split
    all_goals simp

/-- The scanner of a word. -/
def wordScanner (s : List Byte) (qc : Bool) : Scanner s where
  read := wordRead s qc
  forward p more := ⟨Nat.lt_succ_self p, (wordRead_pos more).le⟩
  single _ := le_rfl

end Positions

/-- `parse_cstring`, at the `"` of a `\"`. -/
def parseCstring (s : List Byte) (quote : Nat) : List Byte × Nat :=
  (cstringScanner s).scan cstringMax [] (quote + 1)

/-! ## Comments -/

/-- Where a block comment's `*/` starts. -/
def closing : List Byte → Option Nat
  | a :: b :: rest =>
    if a = star ∧ b = slash then some 0 else (closing (b :: rest)).map (· + 1)
  | _ => none

/-- The position after the comment that starts at `p`, if one does. -/
def commentEnd (s : List Byte) (qc : Bool) (p : Nat) : Option Nat :=
  if s[p]? = some slash ∧ s[p + 1]? = some slash then some (skipWhile (· != newline) s p)
  else if qc = false ∧ s[p]? = some slash ∧ s[p + 1]? = some star then
    match closing (s.drop (p + 2)) with
    | some k => some (p + 2 + k + 2)
    | none => some s.length
  else none

section Positions

variable {s : List Byte} {qc : Bool} {p e : Nat}

/-- A comment ends at the first star with a slash after it. -/
lemma closing_lt {r : List Byte} {k : Nat} (h : closing r = some k) :
    r[k]? = some star ∧ r[k + 1]? = some slash ∧
      ∀ i < k, ¬(r[i]? = some star ∧ r[i + 1]? = some slash) := by
  fun_induction closing r generalizing k with
  | case1 a b rest here =>
    cases h
    obtain ⟨rfl, rfl⟩ := here
    exact ⟨rfl, rfl, fun i low => absurd low (Nat.not_lt_zero i)⟩
  | case2 a b rest elsewhere ih =>
    obtain ⟨k', found, rfl⟩ := Option.map_eq_some_iff.mp h
    obtain ⟨first, second, before⟩ := ih found
    refine ⟨first, second, fun i low => ?_⟩
    cases i with
    | zero =>
      rintro ⟨isStar, isSlash⟩
      exact elsewhere ⟨Option.some.inj isStar, Option.some.inj isSlash⟩
    | succ i => exact before i (Nat.lt_of_succ_lt_succ low)
  | case3 => cases h

/-- A comment goes forward, and not past the end. -/
lemma commentEnd_pos (h : commentEnd s qc p = some e) : p < e ∧ e ≤ s.length := by
  unfold commentEnd at h
  split_ifs at h with line block
  · cases h
    have inside := lt_of_some line.1
    refine ⟨?_, skipWhile_le inside.le⟩
    by_contra stuck
    have same : skipWhile (· != newline) s p = p := le_antisymm (Nat.not_lt.mp stuck) le_skipWhile
    have stop := stopped_skipWhile (q := (· != newline)) (a := slash) (by rw [same]; exact line.1)
    exact absurd stop (by decide)
  · have next := lt_of_some block.2.2
    cases found : closing (s.drop (p + 2)) with
    | none =>
      rw [found] at h
      cases h
      exact ⟨by omega, le_rfl⟩
    | some k =>
      rw [found] at h
      cases h
      obtain ⟨-, last, -⟩ := closing_lt found
      rw [List.getElem?_drop] at last
      have bound := lt_of_some last
      exact ⟨by omega, by omega⟩

end Positions

/-- White space and control characters. -/
def white (c : Byte) : Bool := decide (c ≤ space)

/-- White space inside a line. -/
def blank (c : Byte) : Bool := white c && c != newline

/-- Passes the blanks and the comments from `p` on. -/
def skipBlank (s : List Byte) (qc : Bool) (p : Nat) : Nat :=
  match _h : commentEnd s qc (skipWhile blank s p) with
  | some e => skipBlank s qc e
  | none => skipWhile blank s p
termination_by s.length - p
decreasing_by
  have low : p ≤ skipWhile blank s p := le_skipWhile
  have moved := commentEnd_pos _h
  omega

/-! ## Splitting -/

/-- The token that starts with the byte `c` at `p`. -/
def readToken (s : List Byte) (qc : Bool) (p : Nat) (c : Byte) : List Byte × Nat :=
  if c = newline then ([newline], p + 1)
  else if c = backslash ∧ s[p + 1]? = some doubleQuote then parseCstring s (p + 1)
  else if c = doubleQuote ∨ qc = true ∧ c = singleQuote then
    (quotedScanner s c).scan tokenMax [] (p + 1)
  else if qc = true ∧ isSingle c = true then ([c], p + 1)
  else (wordScanner s qc).scan tokenMax [] p

/-- `parse_token`: `none` when only white space and comments remain. -/
def parseToken (s : List Byte) (p : Nat) (qc : Bool) : Option (List Byte × Nat) :=
  s[skipBlank s qc p]?.map (readToken s qc (skipBlank s qc p))

section Positions

variable {s : List Byte} {qc : Bool} {p e : Nat} {c : Byte} {text : List Byte}

/-- Skipping blanks goes forward, and not past the end. -/
lemma skipBlank_pos (h : p ≤ s.length) : p ≤ skipBlank s qc p ∧ skipBlank s qc p ≤ s.length := by
  fun_induction skipBlank s qc p with
  | case1 p e found ih =>
    obtain ⟨low, high⟩ := commentEnd_pos found
    obtain ⟨after, inside⟩ := ih high
    have skipped : p ≤ skipWhile blank s p := le_skipWhile
    exact ⟨by omega, inside⟩
  | case2 p found => exact ⟨le_skipWhile, skipWhile_le h⟩

/-- Every form of token ends after its first byte, inside the string. -/
lemma readToken_pos (h : s[p]? = some c) :
    p < (readToken s qc p c).2 ∧ (readToken s qc p c).2 ≤ s.length := by
  have inside := lt_of_some h
  -- what a quoted form keeps of its position
  have quoted (r : Scanner s) {limit q : Nat} (start : p < q ∧ q ≤ s.length)
      (step : ∀ i, i ≤ s.length → i ≤ (r.read i).pos ∧ (r.read i).pos ≤ s.length) :
      p < (r.scan limit [] q).2 ∧ (r.scan limit [] q).2 ≤ s.length := by
    have next : ∀ i, p < i ∧ i ≤ s.length → p < (r.read i).pos ∧ (r.read i).pos ≤ s.length := by
      rintro i ⟨low, high⟩
      obtain ⟨forward, bound⟩ := step i high
      exact ⟨by omega, bound⟩
    exact r.scan_end (P := fun i => p < i ∧ i ≤ s.length) start (fun i hi _ => next i hi)
      (fun i hi _ => next i hi) (fun _ hi => hi)
  unfold readToken
  split_ifs with line cstring quote single
  · exact ⟨Nat.lt_succ_self p, inside⟩
  · have next := lt_of_some cstring.2
    refine quoted (cstringScanner s) ⟨by omega, next⟩ fun i high => ?_
    cases here : s[i]? with
    | none =>
      simp only [cstringScanner, cstringRead, here]
      exact ⟨high, le_rfl⟩
    | some d =>
      obtain ⟨forward, bound⟩ := cstringRead_pos here
      exact ⟨forward.le, bound⟩
  · refine quoted (quotedScanner s c) ⟨Nat.lt_succ_self p, inside⟩ fun i high => ?_
    cases here : s[i]? with
    | none =>
      simp only [quotedScanner, quotedRead, here]
      exact ⟨high, le_rfl⟩
    | some d =>
      obtain ⟨forward, bound⟩ := @quotedRead_pos _ _ _ c here
      exact ⟨forward.le, bound⟩
  · exact ⟨Nat.lt_succ_self p, inside⟩
  · -- a word's first turn always reads
    rw [Scanner.scan_read _ (by decide)]
    split_ifs with more
    · refine Scanner.scan_end _ (P := fun i => p < i ∧ i < s.length)
        (Q := fun i => p < i ∧ i ≤ s.length) ?_ ?_ ?_ ?_
      · exact ⟨Nat.lt_succ_self p, wordRead_pos more⟩
      · rintro i ⟨low, -⟩ again
        exact ⟨Nat.lt_succ_of_lt low, wordRead_pos again⟩
      · rintro i ⟨low, high⟩ -
        exact ⟨Nat.lt_succ_of_lt low, high⟩
      · rintro i ⟨low, high⟩
        exact ⟨low, high.le⟩
    · exact ⟨Nat.lt_succ_self p, inside⟩

/-- A token takes at least a byte, and does not go past the end. -/
lemma parseToken_pos (h : p ≤ s.length) (found : parseToken s p qc = some (text, e)) :
    p < e ∧ e ≤ s.length := by
  obtain ⟨c, here, same⟩ := Option.map_eq_some_iff.mp found
  obtain ⟨low, high⟩ := @readToken_pos _ qc _ _ here
  rw [same] at low high
  exact ⟨Nat.lt_of_le_of_lt (skipBlank_pos h).1 low, high⟩

/-- A token is at most `TOKEN_MAX` bytes long. -/
lemma readToken_length : (readToken s qc p c).1.length ≤ tokenMax := by
  have one : 1 ≤ tokenMax := by decide
  unfold readToken
  split_ifs
  · exact one
  · exact (Scanner.scan_length _ (Nat.zero_le _)).trans (by decide)
  · exact Scanner.scan_length _ (Nat.zero_le _)
  · exact one
  · exact Scanner.scan_length _ (Nat.zero_le _)

end Positions

/-- `split`, its loop: the list so far, the budget and the position. -/
def splitLoop (s : List Byte) (qc : Bool) (b : Budget) (list : List Token) (p : Nat) :
    List Token × Budget :=
  if _h : s.length ≤ skipWhile white s p then (list, b)
  else
    match _found : parseToken s (skipWhile white s p) qc with
    | none => (list, b)
    | some (text, e) =>
      if (b.take text).1 then
        splitLoop s qc (b.take text).2
          (list ++ [⟨text, skipWhile white s p, e⟩]) e
      else (list, (b.take text).2)
termination_by s.length - p
decreasing_by
  have low : p ≤ skipWhile white s p := le_skipWhile
  have moved := parseToken_pos (by omega) _found
  omega

/-- `split`: like `tokenize` (`qc`) or `tokenize_console`, until the budget runs out. -/
def split (s : List Byte) (qc : Bool) (b : Budget) : List Token × Budget := splitLoop s qc b [] 0

/-- The separator at `p`: the first of `seps` that starts there, empty ones ignored. -/
def separator (s : List Byte) (seps : List (List Byte)) (p : Nat) : Option (List Byte) :=
  seps.find? fun sep => !sep.isEmpty && sep.isPrefixOf (s.drop p)

/-- A separator that is found is not empty. -/
lemma separator_length {s sep : List Byte} {seps : List (List Byte)} {p : Nat}
    (h : separator s seps p = some sep) : 0 < sep.length := by
  have taken := List.find?_some h
  cases sep with
  | nil => simp at taken
  | cons c rest => exact Nat.succ_pos _

/-- `split_by`, its loop: the start of the token and the position. -/
def splitByLoop (s : List Byte) (seps : List (List Byte)) (b : Budget) (list : List Token)
    (start p : Nat) : List Token × Budget :=
  if _h : p < s.length then
    match _found : separator s seps p with
    | some sep =>
      if (b.take (s.extract start p)).1 then
        splitByLoop s seps (b.take (s.extract start p)).2
          (list ++ [⟨s.extract start p, start, p⟩]) (p + sep.length) (p + sep.length)
      else (list, (b.take (s.extract start p)).2)
    | none => splitByLoop s seps b list start (p + 1)
  else
    if (b.take (s.extract start s.length)).1 then
      (list ++ [⟨s.extract start s.length, start, s.length⟩], (b.take (s.extract start s.length)).2)
    else (list, (b.take (s.extract start s.length)).2)
termination_by s.length - p
decreasing_by
  · have long := separator_length _found
    omega
  · omega

/-- `split_by`: splits at any of `seps`, tried in order at each byte. -/
def splitBy (s : List Byte) (seps : List (List Byte)) (b : Budget) : List Token × Budget :=
  if s = [] then ([], b) else splitByLoop s seps b [] 0 0

/-! ## Without a budget -/

/-- The tokens from `p` on. -/
def tokensFrom (s : List Byte) (qc : Bool) (p : Nat) : List Token :=
  if _h : s.length ≤ skipWhile white s p then []
  else
    match _found : parseToken s (skipWhile white s p) qc with
    | none => []
    | some (text, e) => ⟨text, skipWhile white s p, e⟩ :: tokensFrom s qc e
termination_by s.length - p
decreasing_by
  have low : p ≤ skipWhile white s p := le_skipWhile
  have moved := parseToken_pos (by omega) _found
  omega

/-- The tokens between separators, from `p` on in a token that starts at `start`. -/
def piecesFrom (s : List Byte) (seps : List (List Byte)) (start p : Nat) : List Token :=
  if _h : p < s.length then
    match _found : separator s seps p with
    | some sep =>
      ⟨s.extract start p, start, p⟩ :: piecesFrom s seps (p + sep.length) (p + sep.length)
    | none => piecesFrom s seps start (p + 1)
  else [⟨s.extract start s.length, start, s.length⟩]
termination_by s.length - p
decreasing_by
  · have long := separator_length _found
    omega
  · omega

section Unlimited

variable {s : List Byte} {qc : Bool} {p e : Nat} {text : List Byte}

/-- Where only white space is left there are no tokens. -/
lemma tokensFrom_nil (h : s.length ≤ skipWhile white s p) : tokensFrom s qc p = [] := by
  rw [tokensFrom, dif_pos h]

/-- Where no token can be read there are none. -/
lemma tokensFrom_none (h : ¬s.length ≤ skipWhile white s p)
    (found : parseToken s (skipWhile white s p) qc = none) : tokensFrom s qc p = [] := by
  rw [tokensFrom, dif_neg h]
  split
  next => rfl
  next text e other =>
    rw [found] at other
    cases other

/-- The first token and those after it. -/
lemma tokensFrom_cons (h : ¬s.length ≤ skipWhile white s p)
    (found : parseToken s (skipWhile white s p) qc = some (text, e)) :
    tokensFrom s qc p = ⟨text, skipWhile white s p, e⟩ :: tokensFrom s qc e := by
  rw [tokensFrom, dif_neg h]
  split
  next other =>
    rw [found] at other
    cases other
  next text' e' other =>
    rw [found] at other
    cases other
    rfl

variable {seps : List (List Byte)} {start : Nat} {sep : List Byte}

/-- At a separator a piece ends and the next begins after it. -/
lemma piecesFrom_cons (h : p < s.length) (found : separator s seps p = some sep) :
    piecesFrom s seps start p =
      ⟨s.extract start p, start, p⟩ :: piecesFrom s seps (p + sep.length) (p + sep.length) := by
  rw [piecesFrom, dif_pos h]
  split
  next sep' other =>
    rw [found] at other
    cases other
    rfl
  next other =>
    rw [found] at other
    cases other

/-- A byte that starts no separator belongs to the piece. -/
lemma piecesFrom_none (h : p < s.length) (found : separator s seps p = none) :
    piecesFrom s seps start p = piecesFrom s seps start (p + 1) := by
  rw [piecesFrom, dif_pos h]
  split
  next sep' other =>
    rw [found] at other
    cases other
  next => rfl

/-- At the end of the string the last piece ends. -/
lemma piecesFrom_end (h : ¬p < s.length) :
    piecesFrom s seps start p = [⟨s.extract start s.length, start, s.length⟩] := by
  rw [piecesFrom, dif_neg h]

end Unlimited

section Fit

variable {s : List Byte} {qc : Bool} {seps : List (List Byte)} {b : Budget} {t : Token}
  {list : List Token} {start p : Nat}

@[simp] lemma Budget.fit_nil : b.fit [] = ([], b) := rfl

/-- A token that fits the budget is kept. -/
lemma Budget.fit_cons (h : (b.take t.text).1 = true) :
    b.fit (t :: list) =
      (t :: ((b.take t.text).2.fit list).1, ((b.take t.text).2.fit list).2) := if_pos h

/-- At the first token that does not fit the list ends. -/
lemma Budget.fit_cons_refused (h : ¬(b.take t.text).1 = true) :
    b.fit (t :: list) = ([], (b.take t.text).2) := if_neg h

/-- The loop takes what the budget pays for of the tokens that are left. -/
lemma splitLoop_eq : splitLoop s qc b list p =
    (list ++ (b.fit (tokensFrom s qc p)).1, (b.fit (tokensFrom s qc p)).2) := by
  fun_induction splitLoop s qc b list p with
  | case1 b list p done => rw [tokensFrom_nil done, Budget.fit_nil, List.append_nil]
  | case2 b list p rest none => rw [tokensFrom_none rest none, Budget.fit_nil, List.append_nil]
  | case3 b list p rest text e found paid ih =>
    rw [ih, tokensFrom_cons rest found, Budget.fit_cons paid, List.append_assoc]
    rfl
  | case4 b list p rest text e found refused =>
    rw [tokensFrom_cons rest found, Budget.fit_cons_refused refused, List.append_nil]

/-- The loop of `split_by` keeps the pieces that fit the budget. -/
lemma splitByLoop_eq : splitByLoop s seps b list start p =
    (list ++ (b.fit (piecesFrom s seps start p)).1, (b.fit (piecesFrom s seps start p)).2) := by
  fun_induction splitByLoop s seps b list start p with
  | case1 b list start p rest sep found paid ih =>
    rw [ih, piecesFrom_cons rest found, Budget.fit_cons paid, List.append_assoc]
    rfl
  | case2 b list start p rest sep found refused =>
    rw [piecesFrom_cons rest found, Budget.fit_cons_refused refused, List.append_nil]
  | case3 b list start p rest found ih => rw [ih, piecesFrom_none rest found]
  | case4 b list start p done paid =>
    rw [piecesFrom_end done, Budget.fit_cons paid, Budget.fit_nil]
  | case5 b list start p done refused =>
    rw [piecesFrom_end done, Budget.fit_cons_refused refused, List.append_nil]

/-- The budget cuts the token list short and changes nothing else. -/
lemma split_eq : split s qc b = b.fit (tokensFrom s qc 0) := splitLoop_eq

/-- `split_by` gives the pieces that fit the budget, and none of an empty string. -/
lemma splitBy_eq :
    splitBy s seps b = b.fit (if s = [] then [] else piecesFrom s seps 0 0) := by
  unfold splitBy
  split
  · rfl
  · exact splitByLoop_eq

end Fit

end Stdlib

end Qcvm

import Qcvm.Stdlib.Coverage

/-!
# Quoting

`quote_string` of `stdlib/format.rs` writes a string so that the tokenizer reads it back as one
token. Both of its forms write a prefix of the string, all of it where the buffer is large enough;
the tokenizer reads each byte that was written back as itself (`cstringRead_quoted`,
`quotedRead_plain`) and stops at the closing quote.
-/

namespace Qcvm.Stdlib

open Lib

/-- The letter that a byte is escaped with. -/
def quoteEscape (c : Byte) : Option Byte :=
  if c = newline then some 110
  else if c = carriageReturn then some 114
  else if c = 9 then some 116
  else if c = singleQuote ∨ c = doubleQuote ∨ c = backslash ∨ c = 36 then some c
  else none

/-- What is written for a byte of the string. -/
def quoteByte (c : Byte) : List Byte := (quoteEscape c).elim [c] fun e => [backslash, e]

/-- The loop of the escaped form. -/
def quoteLoop (budget : Nat) : List Byte → List Byte
  | [] => []
  | c :: s => if budget < 2 then [] else quoteByte c ++ quoteLoop (budget - (quoteByte c).length) s

/-- Whether a string needs the escaped form. -/
def needsEscapes (s : List Byte) : Bool :=
  s.any fun c => c = newline || c = carriageReturn || c = doubleQuote

/-- `quote_string`. -/
def quoteString (s : List Byte) (bufsize : Nat) : List Byte :=
  if needsEscapes s then backslash :: doubleQuote :: (quoteLoop (bufsize - 4) s ++ [doubleQuote])
  else doubleQuote :: (s.take (min (bufsize - 3) s.length) ++ [doubleQuote])

/-- The buffer cuts nothing off: a larger one gives the same. -/
def Uncut (s : List Byte) (bufsize : Nat) : Prop :=
  ∀ n, bufsize ≤ n → quoteString s n = quoteString s bufsize

variable {s t u pre post text : List Byte} {budget bufsize limit p : Nat} {c d : Byte} {qc : Bool}
  {out : List Byte}

/-! ## What is written -/

lemma length_quoteByte : 1 ≤ (quoteByte c).length ∧ (quoteByte c).length ≤ 2 := by
  unfold quoteByte
  cases quoteEscape c with
  | none => exact ⟨le_rfl, Nat.le_succ 1⟩
  | some e => exact ⟨Nat.le_succ 1, le_rfl⟩

lemma length_le_flatMap : s.length ≤ (s.flatMap quoteByte).length := by
  induction s with
  | nil => exact le_rfl
  | cons c s ih =>
    have one := (@length_quoteByte c).1
    rw [List.flatMap_cons, List.length_append, List.length_cons]
    omega

/-- The escaped form writes a prefix, and all of the string if twice its length fits. -/
lemma quoteLoop_eq : ∃ u, u <+: s ∧ quoteLoop budget s = u.flatMap quoteByte ∧
    (u.flatMap quoteByte).length ≤ budget ∧ (2 * s.length ≤ budget → u = s) := by
  induction s generalizing budget with
  | nil => exact ⟨[], List.prefix_rfl, rfl, Nat.zero_le _, fun _ => rfl⟩
  | cons c s ih =>
    unfold quoteLoop
    split
    next short =>
      refine ⟨[], List.nil_prefix, rfl, Nat.zero_le _, fun fits => ?_⟩
      rw [List.length_cons] at fits
      omega
    next room =>
      obtain ⟨one, two⟩ := @length_quoteByte c
      obtain ⟨u, part, same, fits, all⟩ := @ih (budget - (quoteByte c).length)
      refine ⟨c :: u, List.prefix_cons_inj c |>.mpr part, ?_, ?_, ?_⟩
      · rw [same, List.flatMap_cons]
      · rw [List.flatMap_cons, List.length_append]
        omega
      · intro double
        rw [List.length_cons] at double
        rw [all (by omega)]

/-- A prefix that is written as the whole string is the string. -/
lemma eq_of_flatMap_eq (part : u <+: s) (same : u.flatMap quoteByte = s.flatMap quoteByte) :
    u = s := by
  obtain ⟨rest, rfl⟩ := part
  rw [List.flatMap_append] at same
  have none : rest.flatMap quoteByte = [] := List.append_right_eq_self.mp same.symm
  have short := @length_le_flatMap rest
  rw [none] at short
  rw [List.length_eq_zero_iff.mp (Nat.le_zero.mp short), List.append_nil]

/-! ## What is read back -/

lemma getElem?_middle : (pre ++ c :: post)[pre.length]? = some c := by
  rw [List.getElem?_append_right le_rfl, Nat.sub_self, List.getElem?_cons_zero]

lemma getElem?_second : (pre ++ c :: d :: post)[pre.length + 1]? = some d := by
  rw [List.append_cons, ← @getElem?_middle (pre ++ [c]) post d, List.length_append,
    List.length_singleton]

/-- An escape is read as the byte it was written for. -/
lemma escape_quoteEscape {e : Byte} (escaped : quoteEscape c = some e) (other : e ≠ doubleQuote) :
    (e ≠ carriageReturn ∧ e ≠ newline) ∧ escape s e p = (c, p) ∧ c ≠ doubleQuote ∧ c ≠ 0 := by
  unfold quoteEscape at escaped
  split_ifs at escaped with isNewline isReturn isTab isSelf
  · cases escaped
    subst isNewline
    exact ⟨by decide, rfl, by decide, by decide⟩
  · cases escaped
    subst isReturn
    exact ⟨by decide, rfl, by decide, by decide⟩
  · cases escaped
    subst isTab
    exact ⟨by decide, rfl, by decide, by decide⟩
  · cases escaped
    rcases isSelf with rfl | rfl | rfl | rfl
    · exact ⟨by decide, rfl, by decide, by decide⟩
    · exact absurd rfl other
    · exact ⟨by decide, rfl, by decide, by decide⟩
    · exact ⟨by decide, rfl, by decide, by decide⟩

/-- A quoted byte is read back as itself. -/
lemma cstringRead_quoted (notNul : c ≠ 0) (split : s = pre ++ (quoteByte c ++ post)) :
    cstringRead s pre.length = ⟨[c], pre.length + (quoteByte c).length, true⟩ := by
  subst split
  unfold quoteByte
  cases escaped : quoteEscape c with
  | none =>
    have plain : c ≠ backslash ∧ c ≠ doubleQuote := by
      unfold quoteEscape at escaped
      split_ifs at escaped with isNewline isReturn isTab isSelf
      rw [not_or, not_or, not_or] at isSelf
      exact ⟨isSelf.2.2.1, isSelf.2.1⟩
    unfold cstringRead
    rw [Option.elim_none, List.singleton_append, getElem?_middle]
    dsimp only
    rw [if_neg plain.1, emit, if_neg (not_or.mpr ⟨plain.2, notNul⟩)]
    rfl
  | some e =>
    unfold cstringRead
    rw [Option.elim_some, List.cons_append, List.singleton_append, getElem?_middle,
      getElem?_second]
    dsimp only
    rw [if_pos rfl]
    by_cases quote : e = doubleQuote
    · have same : c = doubleQuote := by
        subst quote
        unfold quoteEscape at escaped
        split_ifs at escaped
        · exact absurd (Option.some.inj escaped) (by decide)
        · exact absurd (Option.some.inj escaped) (by decide)
        · exact absurd (Option.some.inj escaped) (by decide)
        · exact Option.some.inj escaped
      subst quote
      subst same
      rw [if_neg (by decide), if_pos rfl]
      rfl
    · obtain ⟨notBreak, read, notQuote, notNul'⟩ := escape_quoteEscape escaped quote
      rw [if_neg (not_or.mpr notBreak), if_neg quote, read, emit,
        if_neg (not_or.mpr ⟨notQuote, notNul'⟩)]
      rfl

/-- The scan of the escaped form gives back what was written and ends with it. -/
lemma scan_cstring (noNul : 0 ∉ u) (split : s = pre ++ (u.flatMap quoteByte ++ [doubleQuote]))
    (room : u.length < limit) : (cstringScanner s).scan limit [] pre.length = (u, s.length) := by
  have whole : s = (pre ++ u.flatMap quoteByte) ++ [doubleQuote] := by
    rw [split, List.append_assoc]
  have stops : cstringRead s (pre ++ u.flatMap quoteByte).length = ⟨[], s.length, false⟩ := by
    have long : s.length = (pre ++ u.flatMap quoteByte).length + 1 := by
      rw [whole, List.length_append]
      rfl
    unfold cstringRead
    rw [long, whole, getElem?_middle]
    dsimp only
    rw [if_neg (by decide), emit, if_pos (Or.inl rfl)]
  refine (cstringScanner s).scan_encoded ?_ split stops (by rwa [List.length_nil, Nat.zero_add])
  intro c mem pre post split'
  exact cstringRead_quoted (fun nul => noNul (nul ▸ mem)) split'

/-- A byte that is not the quote is read back as itself. -/
lemma quotedRead_plain (other : c ≠ d) (split : s = pre ++ c :: post) :
    quotedRead s d pre.length = ⟨[c], pre.length + 1, true⟩ := by
  unfold quotedRead
  rw [split, getElem?_middle]
  dsimp only
  rw [if_neg other]

lemma scan_quoted (plain : d ∉ u) (split : s = pre ++ (u ++ [d])) (room : u.length < limit) :
    (quotedScanner s d).scan limit [] pre.length = (u, s.length) := by
  have single : u.flatMap (fun c => [c]) = u := List.flatMap_singleton' u
  have whole : s = (pre ++ u) ++ [d] := by rw [split, List.append_assoc]
  have stops : quotedRead s d (pre ++ u.flatMap fun c => [c]).length = ⟨[], s.length, false⟩ := by
    have long : s.length = (pre ++ u).length + 1 := by
      rw [whole, List.length_append]
      rfl
    have past : s[(pre ++ u).length + 1]? = none := List.getElem?_eq_none long.le
    have here : s[(pre ++ u).length]? = some d := by rw [whole, getElem?_middle]
    unfold quotedRead
    rw [single, here]
    dsimp only
    rw [if_pos rfl, past, if_neg (Option.some_ne_none d ∘ Eq.symm), long]
  refine (quotedScanner s d).scan_encoded ?_ (by rw [single]; exact split) stops
    (by rwa [List.length_nil, Nat.zero_add])
  intro c mem pre post split'
  exact quotedRead_plain (fun same => plain (same ▸ mem)) split'

/-! ## One token -/

/-- A string that starts with a token that takes all of it has that token only. -/
lemma tokensFrom_whole {rest : List Byte} (split : s = c :: rest) (dark : space < c)
    (word : c ≠ slash) (read : readToken s qc 0 c = (text, s.length)) :
    tokensFrom s qc 0 = [⟨text, 0, s.length⟩] := by
  have first : s[0]? = some c := by rw [split, List.getElem?_cons_zero]
  have notWhite : white c = false := decide_eq_false (BitVec.not_le.mpr dark)
  have start (q : Byte → Bool) (stops : q c = false) : skipWhile q s 0 = 0 := by
    unfold skipWhile
    rw [List.drop_zero, split, List.findIdx_cons, stops]
    rfl
  have blank0 := start white notWhite
  have noComment : commentEnd s qc 0 = none := by
    have other : s[0]? ≠ some slash := by
      rw [first]
      exact fun same => word (Option.some.inj same)
    unfold commentEnd
    rw [if_neg (fun both => other both.1), if_neg (fun all => other all.2.1)]
  have skipped : skipBlank s qc 0 = 0 := by
    have noBlank : skipWhile blank s 0 = 0 := start blank (by rw [blank, notWhite]; rfl)
    rw [skipBlank]
    split
    next e found =>
      rw [noBlank, noComment] at found
      cases found
    next => exact noBlank
  have parsed : parseToken s 0 qc = some (text, s.length) := by
    rw [parseToken, skipped, first, Option.map_some, read]
  have some : ¬s.length ≤ skipWhile white s 0 := by
    rw [blank0, split]
    exact Nat.not_succ_le_zero _
  have done : s.length ≤ skipWhile white s s.length := le_skipWhile
  rw [tokensFrom_cons some (by rw [blank0]; exact parsed), blank0, tokensFrom_nil done]

/-- What is written for the beginning `text` of a string. -/
def written (s text : List Byte) : List Byte :=
  if needsEscapes s then backslash :: doubleQuote :: (text.flatMap quoteByte ++ [doubleQuote])
  else doubleQuote :: (text ++ [doubleQuote])

/-- A prefix of the string is written, all of it if twice its length fits. -/
lemma quoteString_written (low : 4 ≤ bufsize) : ∃ text, text <+: s ∧
    quoteString s bufsize = written s text ∧ (written s text).length ≤ bufsize - 1 ∧
      text.length + 3 ≤ bufsize ∧ (2 * s.length + 4 ≤ bufsize → text = s) := by
  unfold quoteString written
  by_cases escapes : needsEscapes s = true
  · obtain ⟨u, part, same, fits, all⟩ := @quoteLoop_eq s (bufsize - 4)
    have short := @length_le_flatMap u
    simp only [if_pos escapes]
    refine ⟨u, part, by rw [same], ?_, by omega, fun double => all (by omega)⟩
    simp only [List.length_cons, List.length_append, List.length_nil]
    omega
  · simp only [if_neg escapes]
    refine ⟨s.take (min (bufsize - 3) s.length), List.take_prefix _ _, rfl, ?_, ?_, ?_⟩
    · simp only [List.length_cons, List.length_append, List.length_nil, List.length_take]
      omega
    · rw [List.length_take]
      omega
    · intro double
      exact List.take_of_length_le (by omega)

lemma eq_of_written_eq (part : text <+: s) (same : written s text = written s s) : text = s := by
  unfold written at same
  split_ifs at same
  · rw [List.cons.injEq, List.cons.injEq] at same
    exact eq_of_flatMap_eq part (List.append_cancel_right same.2.2)
  · rw [List.cons.injEq] at same
    exact List.append_cancel_right same.2

/-- What is written is read back as one token. -/
lemma tokensFrom_written (noNul : 0 ∉ s) (part : text <+: s) (short : text.length < cstringMax) :
    tokensFrom (written s text) qc 0 = [⟨text, 0, (written s text).length⟩] := by
  have one : text.length < tokenMax := short.trans (by decide)
  by_cases escapes : needsEscapes s = true
  · have form : written s text =
        [backslash, doubleQuote] ++ (text.flatMap quoteByte ++ [doubleQuote]) := by
      rw [written, if_pos escapes]
      rfl
    refine tokensFrom_whole form (by decide) (by decide) ?_
    unfold readToken
    rw [if_neg (by decide), if_pos ⟨rfl, by rw [form]; rfl⟩]
    exact scan_cstring (fun mem => noNul (part.subset mem)) form short
  · have plain : doubleQuote ∉ text := by
      intro mem
      exact escapes (List.any_eq_true.mpr ⟨_, part.subset mem, rfl⟩)
    have form : written s text = [doubleQuote] ++ (text ++ [doubleQuote]) := by
      rw [written, if_neg escapes]
      rfl
    refine tokensFrom_whole form (by decide) (by decide) ?_
    unfold readToken
    rw [if_neg (by decide), if_neg (fun both => absurd both.1 (by decide)), if_pos (Or.inl rfl)]
    exact scan_quoted plain form one

/-- Where twice the length of the string fits nothing is cut. -/
lemma uncut_of_le (fits : 2 * s.length + 4 ≤ bufsize) : Uncut s bufsize := by
  have whole (n : Nat) (le : bufsize ≤ n) : quoteString s n = written s s := by
    obtain ⟨text, -, same, -, -, all⟩ := @quoteString_written s n (by omega)
    rw [same, all (fits.trans le)]
  intro n le
  rw [whole n le, whole bufsize le_rfl]

/-- A string without NULs that is quoted for a buffer of either size is tokenized, in both modes and
with a budget that is large enough, as one token: a prefix of the string, and all of it where
nothing was cut. -/
theorem quoteString_one_token (s : List Byte) (noNul : 0 ∉ s) (bufsize : Nat)
    (size : bufsize = 8192 ∨ bufsize = 65536) (qc : Bool) :
    (quoteString s bufsize).length ≤ bufsize - 1 ∧ (2 * s.length + 4 ≤ bufsize → Uncut s bufsize) ∧
      ∃ text, text <+: s ∧ (Uncut s bufsize → text = s) ∧ ∃ unbounded, ∀ m, unbounded ≤ m →
        (split (quoteString s bufsize) qc (.new m)).1 =
            [⟨text, 0, (quoteString s bufsize).length⟩] ∧
          (split (quoteString s bufsize) qc (.new m)).2.exceeded = false := by
  have low : 4 ≤ bufsize := by omega
  obtain ⟨text, part, same, length, short, all⟩ := @quoteString_written s bufsize low
  have token := @tokensFrom_written s text qc noNul part (by unfold cstringMax; omega)
  refine ⟨same ▸ length, uncut_of_le, text, part, fun uncut => ?_, ?_⟩
  · obtain ⟨text', -, same', -, -, all'⟩ := @quoteString_written s (bufsize + (2 * s.length + 4))
      (Nat.le_add_right_of_le low)
    rw [all' (Nat.le_add_left _ _), uncut _ (Nat.le_add_right _ _), same] at same'
    exact eq_of_written_eq part same'
  · refine ⟨Budget.total [⟨text, 0, (written s text).length⟩], fun m le => ?_⟩
    rw [same, split_eq, token]
    exact Budget.fit_of_total_le rfl le

/-- A string that could break out of its quotes. -/
theorem quoteString_one_token_hostile :
    (quoteString [34, 59, 10, 92] 8192).length ≤ 8192 - 1 ∧
      (2 * [34, 59, 10, 92].length + 4 ≤ 8192 → Uncut [34, 59, 10, 92] 8192) ∧
      ∃ text, text <+: [34, 59, 10, 92] ∧ (Uncut [34, 59, 10, 92] 8192 → text = [34, 59, 10, 92]) ∧
        ∃ unbounded, ∀ m, unbounded ≤ m →
          (split (quoteString [34, 59, 10, 92] 8192) true (.new m)).1 =
              [⟨text, 0, (quoteString [34, 59, 10, 92] 8192).length⟩] ∧
            (split (quoteString [34, 59, 10, 92] 8192) true (.new m)).2.exceeded = false :=
  quoteString_one_token [34, 59, 10, 92] (by decide) 8192 (Or.inl rfl) true

end Qcvm.Stdlib

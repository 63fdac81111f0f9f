import Qcvm.Stdlib.Offsets

/-!
# Substrings

`substring` of `stdlib/string.rs` computes the start and the length in wrapping 32-bit arithmetic
and then cuts the string at the byte offsets of the characters. `selected` is the rule of the
documentation over the integers. The two agree but for one pair of arguments: counting from
`i32::MIN` to the end, `slen - start` wraps and the result is empty (`substring_eq_iff`).
-/

namespace Qcvm.Stdlib

open Lib

/-- String handling settings. -/
structure Charset where
  utf8 : Bool
  scheme : CharScheme
  deriving DecidableEq, Repr

/-- `i32::MAX`. -/
def i32Max : Nat := 2147483647

/-- A count as an `i32`, `i32::MAX` if it is too large. -/
def i32OfCount (n : Nat) : Word := if n ≤ i32Max then BitVec.ofNat 32 n else BitVec.ofNat 32 i32Max

/-- `byte_ofs`: negative offsets run to the end. -/
def byteOfs (s : List Byte) (chars : Word) (scheme : CharScheme) : Nat :=
  if chars.slt 0 then s.length else byteOffset s chars.toNat scheme

/-- `i32::min`. -/
def i32Min (a b : Word) : Word := if b.slt a then b else a

/-- A `usize`, 0 for a negative number. -/
def usizeOf (w : Word) : Nat := if w.slt 0 then 0 else w.toNat

/-- The first character and the number of characters, if there are any. -/
def charRange (slen start length : Word) : Option (Word × Word) :=
  let start := if start.slt 0 then slen + start else start
  let length := if length.slt 0 then slen - start + (length + 1) else length
  let start := if start.slt 0 then 0 else start
  if slen.sle start ∨ length.sle 0 then none else some (start, i32Min length (slen - start))

/-- `substring`: the bytes of the result. -/
def substring (cs : Charset) (s : List Byte) (start length : Word) : List Byte :=
  match charRange (i32OfCount (if cs.utf8 then charCount s cs.scheme else s.length)) start length with
  | none => []
  | some (start, length) =>
    let first := if cs.utf8 then byteOfs s start cs.scheme else usizeOf start
    let n := if cs.utf8 then byteOfs (s.drop first) length cs.scheme else usizeOf length
    (s.drop first).take n

/-! ## The rule -/

/-- The characters of a string: bytes, unless strings are decoded. -/
def characters (cs : Charset) (s : List Byte) : List (List Byte) :=
  if cs.utf8 then (chars s cs.scheme).map fun c => s.extract c.ofs (c.ofs + c.len)
  else s.map fun b => [b]

/-- The first character and the number of characters that the rule selects of `n`, if any. -/
def ruleRange (n start length : Int) : Option (Int × Int) :=
  let start := if start < 0 then n + start else start
  let length := if length < 0 then n - start + length + 1 else length
  let start := max start 0
  if n ≤ start ∨ length ≤ 0 then none else some (start, min length (n - start))

/-- The characters that the rule selects. -/
def selected (cs : Charset) (s : List Byte) (start length : Int) : List Byte :=
  (ruleRange (characters cs s).length start length).elim [] fun range =>
    (((characters cs s).drop range.1.toNat).take range.2.toNat).flatten

/-- The arguments for which the code does not follow the rule: from `i32::MIN` to the end. -/
def Wraps (start length : Word) : Prop := start = 0x80000000 ∧ length = -1

instance (start length : Word) : Decidable (Wraps start length) :=
  inferInstanceAs (Decidable (_ ∧ _))

variable {s : List Byte} {scheme : CharScheme} {i n : Nat} {a b start length : Word}

/-! ## The range -/

/-- A sum in range does not wrap. -/
lemma toInt_add_of_le (low : -2147483648 ≤ a.toInt + b.toInt) (high : a.toInt + b.toInt < 2147483648) :
    (a + b).toInt = a.toInt + b.toInt := by
  rw [BitVec.toInt_add]
  exact Int.bmod_eq_of_le low high

/-- A difference in range does not wrap. -/
lemma toInt_sub_of_le (low : -2147483648 ≤ a.toInt - b.toInt) (high : a.toInt - b.toInt < 2147483648) :
    (a - b).toInt = a.toInt - b.toInt := by
  rw [BitVec.toInt_sub]
  exact Int.bmod_eq_of_le low high

/-- The range of a signed word. -/
lemma toInt_range : -2147483648 ≤ a.toInt ∧ a.toInt < 2147483648 :=
  ⟨BitVec.le_toInt a, BitVec.toInt_lt⟩

/-- The sign bit tells the negative words. -/
lemma slt_zero : a.slt 0 = true ↔ a.toInt < 0 := BitVec.slt_iff_toInt_lt

/-- A count in range is its own word. -/
lemma i32OfCount_toInt (h : n < 2147483648) : (i32OfCount n).toInt = n := by
  have le : n ≤ i32Max := Nat.le_of_lt_succ h
  rw [i32OfCount, if_pos le, BitVec.toInt_ofNat']
  exact Int.bmod_eq_of_le (by omega) (by omega)

/-- The start after the first adjustment. -/
lemma toInt_start (h : n < 2147483648) :
    (if start.slt 0 then i32OfCount n + start else start).toInt =
      if start.toInt < 0 then n + start.toInt else start.toInt := by
  have count := i32OfCount_toInt h
  have range := @toInt_range start
  by_cases negative : start.toInt < 0
  · rw [if_pos (slt_zero.mpr negative), if_pos negative, toInt_add_of_le, count]
    · rw [count]
      omega
    · rw [count]
      omega
  · rw [if_neg (fun slt => negative (slt_zero.mp slt)), if_neg negative]

/-- The length after its adjustment, where it does not wrap. -/
lemma toInt_length (h : n < 2147483648)
    (range : length.toInt < 0 → -2147483648 ≤ n - a.toInt + length.toInt + 1 ∧
      n - a.toInt + length.toInt + 1 < 2147483648) :
    (if length.slt 0 then i32OfCount n - a + (length + 1) else length).toInt =
      if length.toInt < 0 then n - a.toInt + length.toInt + 1 else length.toInt := by
  have count := i32OfCount_toInt h
  have one : (1 : Word).toInt = 1 := rfl
  by_cases negative : length.toInt < 0
  · obtain ⟨low, high⟩ := range negative
    rw [if_pos (slt_zero.mpr negative), if_pos negative, BitVec.toInt_add, BitVec.toInt_add,
      BitVec.toInt_sub, count, one, Int.bmod_add_bmod, Int.add_bmod_bmod, ← Int.add_assoc]
    exact Int.bmod_eq_of_le low high
  · rw [if_neg (fun slt => negative (slt_zero.mp slt)), if_neg negative]

/-- The larger of a word and zero. -/
lemma toInt_clamp : (if a.slt 0 then 0 else a).toInt = max a.toInt 0 := by
  by_cases negative : a.toInt < 0
  · rw [if_pos (slt_zero.mpr negative)]
    exact (max_eq_right negative.le).symm
  · rw [if_neg (fun slt => negative (slt_zero.mp slt))]
    exact (max_eq_left (Int.not_lt.mp negative)).symm

/-- The smaller of two words. -/
lemma toInt_i32Min : (i32Min a b).toInt = min a.toInt b.toInt := by
  unfold i32Min
  by_cases less : b.toInt < a.toInt
  · rw [if_pos (BitVec.slt_iff_toInt_lt.mpr less), min_eq_right less.le]
  · rw [if_neg (fun slt => less (BitVec.slt_iff_toInt_lt.mp slt)),
      min_eq_left (Int.not_lt.mp less)]

/-- The characters that the code selects. -/
def charRangeInt (slen start length : Word) : Option (Int × Int) :=
  (charRange slen start length).map fun range => (range.1.toInt, range.2.toInt)

/-- Behind the last character nothing is selected. -/
lemma charRange_past (h : n < 2147483648)
    (past : (n : Int) ≤ max (if start.toInt < 0 then n + start.toInt else start.toInt) 0) :
    charRangeInt (i32OfCount n) start length = none ∧
      ruleRange n start.toInt length.toInt = none := by
  have count := i32OfCount_toInt h
  constructor
  · unfold charRangeInt charRange
    dsimp only
    rw [if_pos, Option.map_none]
    left
    rw [BitVec.sle_iff_toInt_le, toInt_clamp, toInt_start h, count]
    exact past
  · unfold ruleRange
    dsimp only
    rw [if_pos]
    left
    exact past

/-- Where the length does not wrap the code selects what the rule selects. -/
lemma charRange_of_range (h : n < 2147483648)
    (range : length.toInt < 0 →
      -2147483648 ≤ n - (if start.toInt < 0 then n + start.toInt else start.toInt) +
        length.toInt + 1 ∧
      n - (if start.toInt < 0 then n + start.toInt else start.toInt) + length.toInt + 1 <
        2147483648) :
    charRangeInt (i32OfCount n) start length = ruleRange n start.toInt length.toInt := by
  have count := i32OfCount_toInt h
  have first := @toInt_start n start h
  rw [← first] at range
  have second := toInt_length h range
  unfold charRangeInt charRange ruleRange
  dsimp only
  rw [← first, ← second]
  generalize (if start.slt 0 then i32OfCount n + start else start) = a at *
  generalize (if length.slt 0 then i32OfCount n - a + (length + 1) else length) = b at *
  have clamped := @toInt_clamp a
  rw [← clamped]
  generalize (if a.slt 0 then 0 else a) = c at *
  have zero : (0 : Word).toInt = 0 := rfl
  simp only [BitVec.sle_iff_toInt_le, count, zero]
  split_ifs with none
  · rfl
  · rw [Option.map_some, toInt_i32Min, toInt_sub_of_le, count]
    · rw [count]
      omega
    · rw [count]
      omega

/-- The range of characters follows the rule, unless a sum wraps. -/
lemma charRange_rule (h : n < 2147483648) (exact_ : ¬(Wraps start length ∧ 0 < n)) :
    charRangeInt (i32OfCount n) start length = ruleRange n start.toInt length.toInt := by
  by_cases past : (n : Int) ≤ max (if start.toInt < 0 then n + start.toInt else start.toInt) 0
  · obtain ⟨none, none'⟩ := @charRange_past n start length h past
    rw [none, none']
  · rw [not_le, max_lt_iff] at past
    obtain ⟨before, some⟩ := past
    refine charRange_of_range h fun negative => ?_
    have startRange := @toInt_range start
    have lengthRange := @toInt_range length
    split_ifs at before ⊢ with backwards
    · refine ⟨by omega, ?_⟩
      by_contra wrapped
      have first : start = 0x80000000 := BitVec.eq_of_toInt_eq (by
        show start.toInt = -2147483648
        omega)
      have second : length = -1 := BitVec.eq_of_toInt_eq (by
        show length.toInt = -1
        omega)
      exact exact_ ⟨⟨first, second⟩, by omega⟩
    · exact ⟨by omega, by omega⟩

/-- From `i32::MIN` to the end the code selects nothing. -/
lemma charRange_wraps (h : n < 2147483648) (wraps : Wraps start length) :
    charRangeInt (i32OfCount n) start length = none := by
  obtain ⟨rfl, rfl⟩ := wraps
  have range := @toInt_start n 0x80000000 h
  unfold charRangeInt charRange
  dsimp only
  rw [if_pos, Option.map_none]
  right
  rw [if_pos (by decide), if_pos (by decide)]
  have wrapped : i32OfCount n - (i32OfCount n + 0x80000000) + (-1 + 1) = 0x80000000 := by
    bv_omega
  rw [wrapped]
  decide

/-- From there the rule selects everything. -/
lemma ruleRange_wraps (h : n < 2147483648) (wraps : Wraps start length) (pos : 0 < n) :
    ruleRange n start.toInt length.toInt = some (0, (n : Int)) := by
  obtain ⟨rfl, rfl⟩ := wraps
  have first : (0x80000000 : Word).toInt = -2147483648 := rfl
  have second : (-1 : Word).toInt = -1 := rfl
  have backwards : (-2147483648 : Int) < 0 := by decide
  have toEnd : (-1 : Int) < 0 := by decide
  have clamped : max ((n : Int) + -2147483648) 0 = 0 := max_eq_right (by omega)
  have shorter : min ((n : Int) - (n + -2147483648) + -1 + 1) (n - 0) = n := by omega
  unfold ruleRange
  dsimp only
  rw [first, second, if_pos backwards, if_pos toEnd, clamped, shorter, if_neg (by omega)]

/-- What is selected lies among the characters. -/
lemma ruleRange_inside {k m first count : Int} (h : ruleRange n first count = some (k, m)) :
    0 ≤ k ∧ k < n ∧ 0 ≤ m ∧ m ≤ n - k := by
  have clamped : 0 ≤ max (if first < 0 then n + first else first) 0 := le_max_right _ _
  unfold ruleRange at h
  dsimp only at h
  generalize max (if first < 0 then n + first else first) 0 = start at h clamped
  generalize (if count < 0 then _ else count) = length at h
  split_ifs at h with none
  cases h
  rw [not_or, Int.not_le, Int.not_le] at none
  obtain ⟨inside, some⟩ := none
  exact ⟨clamped, inside, le_min some.le (Int.sub_nonneg_of_le inside.le), min_le_right _ _⟩

/-! ## The bytes -/

/-- The bytes of each character. -/
def pieces (s : List Byte) (scheme : CharScheme) : List (List Byte) :=
  (chars s scheme).map fun c => s.extract c.ofs (c.ofs + c.len)

/-- The empty string has no pieces. -/
lemma pieces_nil : pieces [] scheme = [] := by
  unfold pieces chars
  rw [charsFrom_nil, List.map_nil]

/-- The first piece and those after it. -/
lemma pieces_cons (h : s ≠ []) : pieces s scheme =
    s.take (decode s scheme).2 :: pieces (s.drop (decode s scheme).2) scheme := by
  unfold pieces chars
  rw [charsFrom_cons h, List.map_cons, Nat.add_comm 0, charsFrom_shift, List.map_map]
  refine congrArg₂ List.cons ?_ ?_
  · rw [List.extract_eq_take_drop, List.drop_zero, Nat.add_zero, Nat.sub_zero]
  · apply List.map_congr_left
    intro c _
    simp only [Function.comp_apply, List.extract_eq_take_drop, List.drop_drop, Nat.add_assoc,
      Nat.add_sub_add_left]

/-- There are as many pieces as characters. -/
lemma length_pieces : (pieces s scheme).length = (lens s scheme).length := by
  unfold pieces lens
  rw [List.length_map, List.length_map]

/-- The characters from `i` on are those of the string from there on. -/
lemma drop_pieces : (pieces s scheme).drop i = pieces (s.drop (startOf (lens s scheme) i)) scheme ∧
    (lens s scheme).drop i = lens (s.drop (startOf (lens s scheme) i)) scheme := by
  induction i generalizing s with
  | zero => exact ⟨rfl, rfl⟩
  | succ i ih =>
    by_cases some : s = []
    · subst some
      rw [pieces_nil, lens_nil, startOf_nil, List.drop_nil, List.drop_nil, List.drop_nil,
        pieces_nil, lens_nil]
      exact ⟨rfl, rfl⟩
    · rw [pieces_cons some, lens_cons some, startOf_cons, List.drop_succ_cons,
        List.drop_succ_cons, ← List.drop_drop]
      exact ih

/-- The first characters are the bytes before the next. -/
lemma flatten_take_pieces :
    ((pieces s scheme).take i).flatten = s.take (startOf (lens s scheme) i) := by
  induction i generalizing s with
  | zero => rw [List.take_zero, startOf_zero, List.take_zero, List.flatten_nil]
  | succ i ih =>
    by_cases some : s = []
    · subst some
      rw [pieces_nil, List.take_nil, List.take_nil, List.flatten_nil]
    · rw [pieces_cons some, lens_cons some, startOf_cons, List.take_succ_cons, List.flatten_cons,
        ih, List.take_add]

/-- Bytes are the characters of a single-byte scheme. -/
lemma pieces_quake : pieces s .quake = s.map fun b => [b] := by
  induction s with
  | nil => exact pieces_nil
  | cons b s ih =>
    have one : (decode (b :: s) .quake).2 = 1 := rfl
    rw [pieces_cons (List.cons_ne_nil b s), one, List.drop_succ_cons, List.drop_zero, ih]
    rfl

/-- The scheme that cuts a string into its characters. -/
def Charset.effective (cs : Charset) : CharScheme := if cs.utf8 then cs.scheme else .quake

variable {cs : Charset}

/-- The characters are the pieces of the scheme in force. -/
lemma characters_eq : characters cs s = pieces s cs.effective := by
  unfold characters Charset.effective
  split
  · rfl
  · exact pieces_quake.symm

/-- The count of characters is that of the pieces. -/
lemma count_eq : (if cs.utf8 then charCount s cs.scheme else s.length) =
    (characters cs s).length := by
  rw [characters_eq, length_pieces, ← charCount_eq]
  unfold Charset.effective
  split <;> rfl

/-- A word that is not negative is its own number. -/
lemma toNat_of_nonneg (h : 0 ≤ a.toInt) : a.slt 0 = false ∧ a.toNat = a.toInt.toNat := by
  constructor
  · rw [Bool.eq_false_iff]
    intro negative
    exact absurd (slt_zero.mp negative) (Int.not_lt.mpr h)
  · rw [BitVec.toInt_eq_toNat_cond] at h ⊢
    omega

/-- The code cuts the string where the characters are. -/
lemma cut_eq (first : 0 ≤ a.toInt) (count : 0 ≤ b.toInt)
    (inside : a.toInt.toNat ≤ (characters cs s).length)
    (fits : b.toInt.toNat ≤ (characters cs s).length - a.toInt.toNat) :
    (s.drop (if cs.utf8 then byteOfs s a cs.scheme else usizeOf a)).take
        (if cs.utf8 then byteOfs (s.drop (if cs.utf8 then byteOfs s a cs.scheme else usizeOf a)) b
          cs.scheme else usizeOf b) =
      (((characters cs s).drop a.toInt.toNat).take b.toInt.toNat).flatten := by
  obtain ⟨notNegative, value⟩ := toNat_of_nonneg first
  obtain ⟨notNegative', value'⟩ := toNat_of_nonneg count
  unfold byteOfs usizeOf
  rw [notNegative, notNegative', value, value']
  simp only [Bool.false_eq_true, if_false]
  rw [characters_eq] at inside fits ⊢
  rw [drop_pieces.1, flatten_take_pieces]
  unfold Charset.effective at *
  cases decoded : cs.utf8 with
  | true =>
    simp only [if_true]
    rw [byteOffset_eq, byteOffset_eq]
  | false =>
    simp only [decoded, Bool.false_eq_true, if_false] at *
    rw [pieces_quake, List.length_map] at inside fits
    rw [lens_of_single fun _ => rfl, lens_of_single fun _ => rfl, startOf_replicate,
      startOf_replicate, Nat.min_eq_left inside, List.length_drop, Nat.min_eq_left fits]

/-- There are no more characters than bytes. -/
lemma length_characters_le : (characters cs s).length ≤ s.length := by
  rw [characters_eq, length_pieces, ← @sum_lens s cs.effective]
  exact List.length_le_sum_of_one_le _ lens_pos

/-- Only the empty string has no characters. -/
lemma characters_pos : 0 < (characters cs s).length ↔ s ≠ [] := by
  rw [characters_eq, length_pieces]
  constructor
  · intro some empty
    rw [empty, lens_nil] at some
    cases some
  · intro some
    rw [lens_cons some]
    exact Nat.succ_pos _

/-- A range that the code selects lies among the characters. -/
lemma charRange_inside (h : n < 2147483648)
    (e : charRangeInt (i32OfCount n) start length = some (a.toInt, b.toInt)) :
    0 ≤ a.toInt ∧ a.toInt < n ∧ 0 ≤ b.toInt ∧ b.toInt ≤ n - a.toInt := by
  by_cases wraps : Wraps start length
  · rw [charRange_wraps h wraps] at e
    cases e
  · rw [charRange_rule h fun both => wraps both.1] at e
    exact ruleRange_inside e

/-- The code returns the characters of the range that it selects. -/
lemma substring_eq (short : s.length < 2147483648) :
    substring cs s start length =
      (charRangeInt (i32OfCount (characters cs s).length) start length).elim [] fun range =>
        (((characters cs s).drop range.1.toNat).take range.2.toNat).flatten := by
  have small := Nat.lt_of_le_of_lt (@length_characters_le s cs) short
  have inside := @charRange_inside (characters cs s).length
  unfold substring
  rw [count_eq]
  unfold charRangeInt at inside ⊢
  cases e : charRange (i32OfCount (characters cs s).length) start length with
  | none => rfl
  | some range =>
    obtain ⟨a, b⟩ := range
    obtain ⟨first, below, count, fits⟩ := inside small (by rw [e]; rfl)
    dsimp only at first below count fits
    exact cut_eq first count (by omega) (by omega)

/-- A string shorter than 2³¹ bytes: the code returns what the rule selects, except counting from
`i32::MIN` to the end of a string that is not empty. -/
theorem substring_eq_iff (cs : Charset) (s : List Byte) (start length : Word)
    (short : s.length < 2147483648) :
    substring cs s start length = selected cs s start.toInt length.toInt ↔
      ¬(Wraps start length ∧ s ≠ []) := by
  have small := Nat.lt_of_le_of_lt (@length_characters_le s cs) short
  rw [substring_eq short, ← @characters_pos s cs]
  by_cases wrapped : Wraps start length ∧ 0 < (characters cs s).length
  · obtain ⟨wraps, some⟩ := wrapped
    have whole : selected cs s start.toInt length.toInt = s := by
      have all := @flatten_take_pieces s cs.effective (characters cs s).length
      rw [characters_eq, length_pieces, startOf_of_le le_rfl, sum_lens, List.take_length] at all
      rw [selected, ruleRange_wraps small wraps some, Option.elim_some, Int.toNat_zero,
        List.drop_zero, Int.toNat_natCast, characters_eq, length_pieces]
      exact all
    rw [charRange_wraps small wraps, whole, Option.elim_none]
    constructor
    · intro empty
      exact absurd empty.symm (characters_pos.mp some)
    · intro not
      exact absurd ⟨wraps, some⟩ not
  · rw [charRange_rule small wrapped, selected]
    exact ⟨fun _ => wrapped, fun _ => rfl⟩

/-- The second character of three. -/
theorem substring_eq_iff_accented :
    substring ⟨true, .utf8⟩ [0xC3, 0xA9, 0xC3, 0xA8, 0x61] (-2) 1 =
        selected ⟨true, .utf8⟩ [0xC3, 0xA9, 0xC3, 0xA8, 0x61] (-2 : Word).toInt (1 : Word).toInt ↔
      ¬(Wraps (-2) 1 ∧ [0xC3, 0xA9, 0xC3, 0xA8, 0x61] ≠ ([] : List Byte)) :=
  substring_eq_iff ⟨true, .utf8⟩ [0xC3, 0xA9, 0xC3, 0xA8, 0x61] (-2) 1 (by decide)

/-- `substring("abc", -1e10, -1)` is empty, while the rule selects the whole string. -/
theorem substring_wraps :
    substring ⟨false, .quake⟩ [97, 98, 99] 0x80000000 (-1) ≠
      selected ⟨false, .quake⟩ [97, 98, 99] (0x80000000 : Word).toInt (-1 : Word).toInt := by
  decide

end Qcvm.Stdlib

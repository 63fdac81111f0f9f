import Qcvm.Stdlib.Utf8

/-!
# Case conversion

`change_case` of `stdlib/string.rs` decodes, maps the ASCII letters and encodes again. A second pass
decodes what the first encoded. In a scheme of single bytes that is a map of bytes; in UTF-8 it is
the list of code points of the first pass, with every high surrogate that is directly followed by a
low one joined to it (`codes_flatMap`). The decoder does not join a pair in which one is overlong,
but the encoder writes both in their shortest form, so such a pair is joined by the second pass.
-/

namespace Qcvm.Stdlib

open Lib

/-- The ASCII mapping of a code point. -/
def mapAscii (upper : Bool) (c : Nat) : Nat :=
  if c ≤ 0xFF then
    (if upper then asciiUpper (BitVec.ofNat 8 c) else asciiLower (BitVec.ofNat 8 c)).toNat
  else c

/-- The case mapping: ASCII letters, also inside `U+E020..=U+E07F`. -/
def mapCase (upper : Bool) (c : Nat) : Nat :=
  if 0xE020 ≤ c ∧ c ≤ 0xE07F then mapAscii upper (c &&& 0x7F) ||| (c &&& 0xFF80)
  else mapAscii upper c

/-- Output limit of the case conversions. -/
def caseMax : Nat := 8191

/-- The loop of `change_case`: stops before a character that does not fit. -/
def changeCaseLoop (scheme : CharScheme) (upper : Bool) : List CharAt → List Byte → List Byte
  | [], out => out
  | c :: cs, out =>
    if caseMax < out.length + (encode (mapCase upper c.ch) scheme false).length then out
    else changeCaseLoop scheme upper cs (out ++ encode (mapCase upper c.ch) scheme false)

/-- `change_case`. -/
def changeCase (s : List Byte) (scheme : CharScheme) (upper : Bool) : List Byte :=
  changeCaseLoop scheme upper (chars s scheme) []

/-- The code points of a string. -/
def codes (s : List Byte) (scheme : CharScheme) : List Nat := (chars s scheme).map CharAt.ch

/-- The converted string without the limit. -/
def converted (s : List Byte) (scheme : CharScheme) (upper : Bool) : List Byte :=
  (codes s scheme).flatMap fun c => encode (mapCase upper c) scheme false

variable {s : List Byte} {scheme : CharScheme} {upper : Bool} {b : Byte} {c d n m ofs : Nat}
  {l : List Nat} {out : List Byte}

/-! ## The limit -/

/-- The loop gives a beginning of the converted string. -/
lemma changeCaseLoop_cut {cs : List CharAt} : changeCaseLoop scheme upper cs out <+:
    out ++ (cs.map CharAt.ch).flatMap fun c => encode (mapCase upper c) scheme false := by
  induction cs generalizing out with
  | nil =>
    rw [List.map_nil, List.flatMap_nil, List.append_nil]
    exact List.prefix_rfl
  | cons c cs ih =>
    unfold changeCaseLoop
    rw [List.map_cons, List.flatMap_cons, ← List.append_assoc]
    split
    · exact (List.prefix_append _ _).trans (List.prefix_append _ _)
    · exact ih

/-- Within the limit the loop gives the whole converted string. -/
lemma changeCaseLoop_of_le {cs : List CharAt}
    (fits : (out ++ (cs.map CharAt.ch).flatMap fun c =>
      encode (mapCase upper c) scheme false).length ≤ caseMax) :
    changeCaseLoop scheme upper cs out =
      out ++ (cs.map CharAt.ch).flatMap fun c => encode (mapCase upper c) scheme false := by
  induction cs generalizing out with
  | nil => exact (List.append_nil out).symm
  | cons c cs ih =>
    rw [List.map_cons, List.flatMap_cons, ← List.append_assoc] at fits ⊢
    have first : out.length + (encode (mapCase upper c.ch) scheme false).length ≤ caseMax := by
      rw [← List.length_append]
      rw [List.length_append] at fits
      exact Nat.le_of_add_right_le fits
    rw [changeCaseLoop, if_neg (Nat.not_lt.mpr first)]
    exact ih fits

/-- The result is the converted string, cut at the limit. -/
lemma changeCase_cut : changeCase s scheme upper <+: converted s scheme upper :=
  changeCaseLoop_cut

/-- Within the limit `change_case` is the conversion. -/
lemma changeCase_of_le (fits : (converted s scheme upper).length ≤ caseMax) :
    changeCase s scheme upper = converted s scheme upper := changeCaseLoop_of_le fits

/-! ## The mapping -/

/-- Mapping a byte twice is mapping it once, and it stays a byte. -/
lemma mapAscii_small : ∀ c < 256, mapAscii upper (mapAscii upper c) = mapAscii upper c ∧
    mapAscii upper c < 256 := by
  cases upper <;> decide +kernel

/-- The case mapping keeps the range of coloured characters, and there too mapping twice is mapping
once. -/
lemma mapCase_private : ∀ x < 0x60, mapCase upper (mapCase upper (0xE020 + x)) =
    mapCase upper (0xE020 + x) ∧ 0xE020 ≤ mapCase upper (0xE020 + x) ∧
      mapCase upper (0xE020 + x) ≤ 0xE07F := by
  cases upper <;> decide +kernel

/-- What is neither a byte nor a glyph of the private area is not mapped. -/
lemma mapCase_of_large (large : 0xFF < c) (other : ¬(0xE020 ≤ c ∧ c ≤ 0xE07F)) :
    mapCase upper c = c := by
  rw [mapCase, if_neg other, mapAscii, if_neg (Nat.not_le.mpr large)]

/-- On bytes the case mapping is the ASCII one. -/
lemma mapCase_of_small (small : c ≤ 0xFF) : mapCase upper c = mapAscii upper c :=
  if_neg (by omega)

/-- The three ranges of the mapping: bytes, glyphs, and what is kept. -/
lemma mapCase_cases (upper : Bool) (c : Nat) :
    c ≤ 0xFF ∧ mapCase upper c ≤ 0xFF ∨
      (0xE020 ≤ c ∧ c ≤ 0xE07F) ∧ 0xE020 ≤ mapCase upper c ∧ mapCase upper c ≤ 0xE07F ∨
      mapCase upper c = c := by
  by_cases small : c ≤ 0xFF
  · left
    rw [mapCase_of_small small]
    exact ⟨small, Nat.le_of_lt_succ (mapAscii_small c (Nat.lt_succ_of_le small)).2⟩
  · right
    by_cases glyph : 0xE020 ≤ c ∧ c ≤ 0xE07F
    · left
      obtain ⟨x, rfl⟩ := Nat.exists_eq_add_of_le glyph.1
      exact ⟨glyph, (mapCase_private x (by omega)).2⟩
    · exact Or.inr (mapCase_of_large (Nat.not_le.mp small) glyph)

/-- Mapping a code point twice is mapping it once. -/
@[simp] lemma mapCase_mapCase : mapCase upper (mapCase upper c) = mapCase upper c := by
  by_cases small : c ≤ 0xFF
  · obtain ⟨same, less⟩ := @mapAscii_small upper c (Nat.lt_succ_of_le small)
    rw [mapCase_of_small small, mapCase_of_small (Nat.le_of_lt_succ less), same]
  · by_cases glyph : 0xE020 ≤ c ∧ c ≤ 0xE07F
    · obtain ⟨x, rfl⟩ := Nat.exists_eq_add_of_le glyph.1
      exact (mapCase_private x (by omega)).1
    · have kept := @mapCase_of_large upper c (Nat.not_le.mp small) glyph
      rw [kept, kept]

/-- The case mapping keeps high surrogates, and makes none. -/
lemma isHigh_mapCase : IsHigh (mapCase upper c) ↔ IsHigh c := by
  have ranges := mapCase_cases upper c
  unfold IsHigh
  omega

/-- The case mapping keeps low surrogates, and makes none. -/
lemma isLow_mapCase : IsLow (mapCase upper c) ↔ IsLow c := by
  have ranges := mapCase_cases upper c
  unfold IsLow
  omega

/-- The case mapping stays among the code points that can be encoded. -/
lemma mapCase_le (h : c ≤ 0x7FFFFFFF) : mapCase upper c ≤ 0x7FFFFFFF := by
  have ranges := mapCase_cases upper c
  omega

/-! ## Code points of UTF-8 -/

/-- A continuation byte adds six bits. -/
lemma appendCont_lt (h : n < 2 ^ m) : appendCont n b < 2 ^ (m + 6) := by
  have payload : (b &&& 0x3F).toNat ≤ 63 := by
    rw [BitVec.toNat_and]
    exact Nat.and_le_right
  apply Nat.or_lt_two_pow
  · rw [Nat.shiftLeft_eq, Nat.pow_add]
    exact Nat.mul_lt_mul_of_pos_right h (by decide)
  · refine Nat.lt_of_le_of_lt payload (Nat.lt_of_lt_of_le (by decide : 63 < 2 ^ 6) ?_)
    exact Nat.pow_le_pow_right (by decide) (Nat.le_add_left _ _)

/-- Continuation bytes add six bits each. -/
lemma foldl_appendCont_lt {conts : List Byte} (h : n < 2 ^ m) :
    conts.foldl appendCont n < 2 ^ (m + 6 * conts.length) := by
  induction conts generalizing n m with
  | nil => exact h
  | cons b conts ih =>
    rw [List.foldl_cons, List.length_cons, Nat.mul_succ, Nat.add_comm (6 * _), ← Nat.add_assoc]
    exact ih (appendCont_lt h)

/-- No sequence has more than 31 bits of payload. -/
lemma decodeSequence_ch_le {least k : Nat} {mask : Byte} (fits : mask.toNat < 2 ^ k)
    (short : k + 6 * (n - 1) ≤ 31) : (decodeSequence s b n mask least).ch ≤ 0x7FFFFFFF := by
  unfold decodeSequence
  split
  · have lead : (b &&& mask).toNat < 2 ^ k := by
      rw [BitVec.toNat_and]
      exact Nat.lt_of_le_of_lt Nat.and_le_right fits
    have conts : ((s.take n).drop 1).length ≤ n - 1 := by
      rw [List.length_drop, List.length_take]
      exact Nat.sub_le_sub_right (Nat.min_le_left _ _) 1
    apply Nat.le_of_lt_succ
    refine Nat.lt_of_lt_of_le (foldl_appendCont_lt lead) ?_
    exact Nat.pow_le_pow_right (by decide : 0 < 2) (by omega : k + 6 * _ ≤ 31)
  · decide

/-- A decoded sequence fits 31 bits. -/
lemma decodeUtf8Basic_ch_le : (decodeUtf8Basic s).ch ≤ 0x7FFFFFFF := by
  cases s with
  | nil => exact Nat.zero_le _
  | cons b s =>
    have byte := b.isLt
    simp only [decodeUtf8Basic]
    split_ifs
    · show b.toNat ≤ _
      omega
    · have private_ : 0xE000 ||| b.toNat < 2 ^ 16 :=
        Nat.or_lt_two_pow (by decide) (Nat.lt_of_lt_of_le byte (by decide))
      show 0xE000 ||| b.toNat ≤ _
      omega
    · unfold leadOf
      split_ifs
      · exact decodeSequence_ch_le (k := 5) (by decide) (by decide)
      · exact decodeSequence_ch_le (k := 4) (by decide) (by decide)
      · exact decodeSequence_ch_le (k := 3) (by decide) (by decide)
      · exact decodeSequence_ch_le (k := 2) (by decide) (by decide)
      · exact decodeSequence_ch_le (k := 1) (by decide) (by decide)

/-- The character of a high and a low surrogate. -/
def joined (a b : Nat) : Nat := ((a &&& 0x3FF) <<< 10 ||| (b &&& 0x3FF)) + 0x10000

/-- A joined pair is a code point above the surrogates. -/
lemma joined_range {a b : Nat} : 0x10000 ≤ joined a b ∧ joined a b ≤ 0x10FFFF := by
  have bits : (a &&& 0x3FF) <<< 10 ||| (b &&& 0x3FF) < 2 ^ 20 := by
    have high : a &&& 0x3FF ≤ 0x3FF := Nat.and_le_right
    have low : b &&& 0x3FF ≤ 0x3FF := Nat.and_le_right
    apply Nat.or_lt_two_pow
    · rw [Nat.shiftLeft_eq]
      omega
    · omega
  unfold joined
  omega

/-- A decoded character fits 31 bits. -/
lemma decodeUtf8_ch_le : (decodeUtf8 s).ch ≤ 0x7FFFFFFF := by
  unfold decodeUtf8
  dsimp only
  split_ifs with clean high
  · rw [markIllegal_ch]
    unfold joinSurrogates
    split
    · exact (@joined_range (decodeUtf8Basic s).ch _).2.trans (by decide)
    · exact decodeUtf8Basic_ch_le
  · rw [markIllegal_ch]
    exact decodeUtf8Basic_ch_le
  · exact decodeUtf8Basic_ch_le

/-- The characters of a UTF-8 string fit 31 bits. -/
lemma ch_le {item : CharAt} (utf8 : scheme = .utf8) (mem : item ∈ charsFrom scheme ofs s) :
    item.ch ≤ 0x7FFFFFFF := by
  fun_induction charsFrom scheme ofs s with
  | case1 => cases mem
  | case2 ofs s some ih =>
    cases mem with
    | head =>
      subst utf8
      exact decodeUtf8_ch_le
    | tail _ mem => exact ih mem

/-- The code points of a UTF-8 string fit 31 bits. -/
lemma codes_utf8_le : ∀ c ∈ codes s .utf8, c ≤ 0x7FFFFFFF := by
  intro c mem
  obtain ⟨item, listed, rfl⟩ := List.mem_map.mp mem
  exact ch_le rfl listed

/-- The list with every high surrogate joined to a low one directly after it. -/
def joinPairs : List Nat → List Nat
  | a :: b :: l => if IsHigh a ∧ IsLow b then joined a b :: joinPairs l else a :: joinPairs (b :: l)
  | l => l

/-- An encoded pair is read back as one character. -/
lemma decodeUtf8_pair {rest : List Byte} (high : IsHigh c) (low : IsLow d) :
    (decodeUtf8 (encodeUtf8 c ++ (encodeUtf8 d ++ rest))).ch = joined c d ∧
      (decodeUtf8 (encodeUtf8 c ++ (encodeUtf8 d ++ rest))).len =
        (encodeUtf8 c).length + (encodeUtf8 d).length := by
  have small : c ≤ 0x7FFFFFFF := high.2.le.trans (by decide)
  have small' : d ≤ 0x7FFFFFFF := low.2.le.trans (by decide)
  unfold decodeUtf8
  rw [decodeUtf8Basic_encodeUtf8 small]
  dsimp only
  rw [if_pos rfl, markIllegal_ch, markIllegal_len, if_pos high, List.drop_left,
    decodeUtf8Basic_encodeUtf8 small', joinSurrogates, if_pos ⟨rfl, low⟩]
  exact ⟨rfl, rfl⟩

/-- Encoded code points are read back, unless a pair of surrogates stands among them. -/
lemma codes_of_unpaired (bound : ∀ c ∈ l, c ≤ 0x7FFFFFFF) (unpaired : Unpaired l) :
    (charsFrom .utf8 ofs (l.flatMap encodeUtf8)).map CharAt.ch = l := by
  have same := congrArg (List.map Prod.fst) (@charsFrom_flatMap ofs l bound unpaired)
  rw [List.map_map, List.map_map] at same
  exact same.trans (List.map_id l)

/-- Reading an encoded list back joins its pairs. -/
lemma codes_flatMap (bound : ∀ c ∈ l, c ≤ 0x7FFFFFFF) :
    (charsFrom .utf8 ofs (l.flatMap encodeUtf8)).map CharAt.ch = joinPairs l := by
  fun_induction joinPairs l generalizing ofs with
  | case1 a b l pair ih =>
    have read : decode (encodeUtf8 a ++ (encodeUtf8 b ++ l.flatMap encodeUtf8)) .utf8 =
        (joined a b, (encodeUtf8 a).length + (encodeUtf8 b).length) :=
      Prod.ext (decodeUtf8_pair pair.1 pair.2).1 (decodeUtf8_pair pair.1 pair.2).2
    rw [List.flatMap_cons, List.flatMap_cons,
      charsFrom_cons (List.append_ne_nil_of_left_ne_nil encodeUtf8_ne_nil _), read, List.map_cons]
    dsimp only
    rw [← List.drop_drop, List.drop_left, List.drop_left,
      ih fun c mem => bound c (List.mem_cons_of_mem _ (List.mem_cons_of_mem _ mem))]
  | case2 a b l apart ih =>
    have first : (decodeUtf8 (encodeUtf8 a ++ (b :: l).flatMap encodeUtf8)).ch = a ∧
        (decodeUtf8 (encodeUtf8 a ++ (b :: l).flatMap encodeUtf8)).len =
          (encodeUtf8 a).length := by
      apply decodeUtf8_of_basic
      · exact decodeUtf8Basic_encodeUtf8 (bound a List.mem_cons_self)
      · intro high
        rw [List.drop_left, decodeUtf8Basic_flatMap fun c mem => bound c
          (List.mem_cons_of_mem _ mem)]
        intro low
        exact apart ⟨high, low.2⟩
    have read : decode (encodeUtf8 a ++ (b :: l).flatMap encodeUtf8) .utf8 =
        (a, (encodeUtf8 a).length) := Prod.ext first.1 first.2
    rw [List.flatMap_cons,
      charsFrom_cons (List.append_ne_nil_of_left_ne_nil encodeUtf8_ne_nil _), read, List.map_cons,
      List.drop_left, ih fun c mem => bound c (List.mem_cons_of_mem _ mem)]
  | case3 l short =>
    cases l with
    | nil =>
      rw [List.flatMap_nil, charsFrom_nil]
      rfl
    | cons c l =>
      cases l with
      | nil =>
        exact codes_of_unpaired bound (List.isChain_singleton c)
      | cons d l => exact absurd rfl (short c d l)

/-- The length of an encoded code point. -/
lemma length_encodeUtf8 (low : 0x7F < c) (high : c ≤ 0x7FFFFFFF) :
    (encodeUtf8 c).length = sequenceLength c := by
  obtain ⟨two, -⟩ := sequenceLength_spec low high
  unfold encodeUtf8
  rw [if_neg (Nat.not_lt.mpr high)]
  dsimp only
  rw [if_neg (Nat.ne_of_gt (Nat.zero_lt_of_lt low)), if_neg (Nat.not_le.mpr low), List.length_cons,
    length_contBytes, Nat.sub_add_cancel (Nat.le_of_succ_le two)]

/-- A surrogate takes three bytes, a character of two surrogates four. -/
lemma length_surrogate (h : IsHigh c ∨ IsLow c) : (encodeUtf8 c).length = 3 := by
  unfold IsHigh IsLow at h
  rw [length_encodeUtf8 (by omega) (by omega), sequenceLength, if_neg (by omega),
    if_pos (by omega)]

/-- A joined pair takes four bytes. -/
lemma length_joined : (encodeUtf8 (joined c d)).length = 4 := by
  obtain ⟨low, high⟩ := @joined_range c d
  rw [length_encodeUtf8 (by omega) (by omega), sequenceLength, if_neg (by omega),
    if_neg (by omega), if_pos (by omega)]

/-- Joining a pair makes the encoding shorter. -/
lemma length_joinPairs :
    ((joinPairs l).flatMap encodeUtf8).length ≤ (l.flatMap encodeUtf8).length ∧
      (¬Unpaired l → ((joinPairs l).flatMap encodeUtf8).length < (l.flatMap encodeUtf8).length) := by
  fun_induction joinPairs l with
  | case1 a b l pair ih =>
    have lengths := length_surrogate (Or.inl pair.1)
    have lengths' := length_surrogate (Or.inr pair.2)
    simp only [List.flatMap_cons, List.length_append, length_joined, lengths, lengths']
    exact ⟨by omega, fun _ => by omega⟩
  | case2 a b l apart ih =>
    simp only [List.flatMap_cons, List.length_append] at ih ⊢
    refine ⟨by omega, fun paired => ?_⟩
    have rest : ¬Unpaired (b :: l) := by
      intro unpaired
      exact paired (List.isChain_cons_cons.mpr ⟨apart, unpaired⟩)
    have := ih.2 rest
    omega
  | case3 l short =>
    refine ⟨le_rfl, fun paired => absurd ?_ paired⟩
    cases l with
    | nil => exact List.isChain_nil
    | cons c l =>
      cases l with
      | nil => exact List.isChain_singleton c
      | cons d l => exact False.elim (short c d l rfl)

/-- Joining pairs leaves nothing new to map. -/
lemma map_joinPairs (mapped : l.map (mapCase upper) = l) :
    (joinPairs l).map (mapCase upper) = joinPairs l := by
  fun_induction joinPairs l with
  | case1 a b l pair ih =>
    obtain ⟨low, high⟩ := @joined_range a b
    rw [List.map_cons, List.map_cons, List.cons.injEq, List.cons.injEq] at mapped
    rw [List.map_cons, ih mapped.2.2, mapCase_of_large (by omega) (by omega)]
  | case2 a b l apart ih =>
    rw [List.map_cons, List.cons.injEq] at mapped
    rw [List.map_cons, ih mapped.2, mapped.1]
  | case3 l short => exact mapped

/-- The mapping does not change where the pairs are. -/
lemma unpaired_map : Unpaired (l.map (mapCase upper)) ↔ Unpaired l := by
  unfold Unpaired
  rw [List.isChain_map]
  simp only [isHigh_mapCase, isLow_mapCase]

/-- Converting a converted UTF-8 string joins its pairs. -/
lemma converted_converted_utf8 :
    converted (converted s .utf8 upper) .utf8 upper =
      (joinPairs ((codes s .utf8).map (mapCase upper))).flatMap encodeUtf8 := by
  have first : converted s .utf8 upper =
      ((codes s .utf8).map (mapCase upper)).flatMap encodeUtf8 := by
    rw [List.flatMap_map]
    rfl
  have bound : ∀ c ∈ (codes s .utf8).map (mapCase upper), c ≤ 0x7FFFFFFF := by
    intro c mem
    obtain ⟨d, listed, rfl⟩ := List.mem_map.mp mem
    exact mapCase_le (codes_utf8_le d listed)
  have mapped : ((codes s .utf8).map (mapCase upper)).map (mapCase upper) =
      (codes s .utf8).map (mapCase upper) := by
    rw [List.map_map]
    exact List.map_congr_left fun c _ => mapCase_mapCase
  have read : codes (converted s .utf8 upper) .utf8 =
      joinPairs ((codes s .utf8).map (mapCase upper)) := by
    rw [first]
    exact codes_flatMap bound
  have again := map_joinPairs mapped
  unfold converted at read ⊢
  rw [read]
  nth_rewrite 2 [← again]
  rw [List.flatMap_map]
  rfl

/-! ## Schemes of single bytes -/

/-- The byte that a byte is converted to. -/
def convertByte (scheme : CharScheme) (upper : Bool) (b : Byte) : Byte :=
  (encode (mapCase upper (decode [b] scheme).1) scheme false).headD 0

/-- In a scheme of single bytes a byte is converted to a byte, and twice as once. -/
lemma convertByte_spec (single : scheme ≠ .utf8) : ∀ n < 256,
    encode (mapCase upper (decode [BitVec.ofNat 8 n] scheme).1) scheme false =
        [convertByte scheme upper (BitVec.ofNat 8 n)] ∧
      convertByte scheme upper (convertByte scheme upper (BitVec.ofNat 8 n)) =
        convertByte scheme upper (BitVec.ofNat 8 n) := by
  cases scheme with
  | utf8 => exact absurd rfl single
  | quake => cases upper <;> decide +kernel
  | iso8859 => cases upper <;> decide +kernel

/-- The first code point of a string and the others. -/
lemma codes_cons (h : s ≠ []) :
    codes s scheme = (decode s scheme).1 :: codes (s.drop (decode s scheme).2) scheme := by
  unfold codes chars
  rw [charsFrom_cons h, List.map_cons, Nat.add_comm 0, charsFrom_shift, List.map_map]
  rfl

/-- In a scheme of single bytes a string is converted byte by byte. -/
lemma converted_single (single : scheme ≠ .utf8) :
    converted s scheme upper = s.map (convertByte scheme upper) := by
  induction s with
  | nil =>
    unfold converted codes chars
    rw [charsFrom_nil]
    rfl
  | cons b s ih =>
    have first : (decode (b :: s) scheme).1 = (decode [b] scheme).1 ∧
        (decode (b :: s) scheme).2 = 1 := by
      cases scheme with
      | utf8 => exact absurd rfl single
      | quake => exact ⟨rfl, rfl⟩
      | iso8859 => exact ⟨rfl, rfl⟩
    have byte := (@convertByte_spec scheme upper single b.toNat b.isLt).1
    rw [BitVec.ofNat_toNat, BitVec.setWidth_eq] at byte
    unfold converted at ih ⊢
    rw [codes_cons (List.cons_ne_nil b s), first.1, first.2, List.drop_succ_cons, List.drop_zero,
      List.flatMap_cons, ih, byte, List.map_cons]
    rfl

/-- Converting a byte twice is converting it once. -/
lemma convertByte_convertByte (single : scheme ≠ .utf8) :
    convertByte scheme upper (convertByte scheme upper b) = convertByte scheme upper b := by
  have same := (@convertByte_spec scheme upper single b.toNat b.isLt).2
  rwa [BitVec.ofNat_toNat, BitVec.setWidth_eq] at same

/-! ## Converting twice -/

/-- Without a pair there is nothing to join. -/
lemma joinPairs_of_unpaired (h : Unpaired l) : joinPairs l = l := by
  fun_induction joinPairs l with
  | case1 a b l pair ih => exact absurd pair (List.isChain_cons_cons.mp h).1
  | case2 a b l apart ih => rw [ih (List.isChain_cons_cons.mp h).2]
  | case3 l short => rfl

/-- Converting a second time changes nothing exactly when the string has no high surrogate directly
followed by a low one that the decoder did not join. -/
theorem changeCase_changeCase_iff (s : List Byte) (scheme : CharScheme) (upper : Bool)
    (fits : (converted s scheme upper).length ≤ caseMax) :
    changeCase (changeCase s scheme upper) scheme upper = changeCase s scheme upper ↔
      (scheme = .utf8 → Unpaired (codes s scheme)) := by
  rw [changeCase_of_le fits]
  by_cases utf8 : scheme = .utf8
  · subst utf8
    have first : converted s .utf8 upper =
        ((codes s .utf8).map (mapCase upper)).flatMap encodeUtf8 := by
      rw [List.flatMap_map]
      rfl
    constructor
    · intro same _
      by_contra paired
      rw [← @unpaired_map upper] at paired
      have less := length_joinPairs.2 paired
      rw [← first, ← converted_converted_utf8] at less
      have cut := (@changeCase_cut (converted s .utf8 upper) .utf8 upper).length_le
      rw [same] at cut
      exact absurd less (Nat.not_lt.mpr cut)
    · intro unpaired
      have again : converted (converted s .utf8 upper) .utf8 upper = converted s .utf8 upper := by
        rw [converted_converted_utf8, joinPairs_of_unpaired (unpaired_map.mpr (unpaired rfl)),
          first]
      rw [changeCase_of_le (by rwa [again]), again]
  · have again : converted (converted s scheme upper) scheme upper = converted s scheme upper := by
      rw [converted_single utf8, converted_single utf8, List.map_map]
      exact List.map_congr_left fun b _ => convertByte_convertByte utf8
    rw [changeCase_of_le (by rwa [again]), again]
    exact ⟨fun _ same => absurd same utf8, fun _ => rfl⟩

/-- A stray lead byte, a high surrogate alone and a byte that starts nothing: the second pass changes nothing. -/
theorem changeCase_changeCase_malformed :
    changeCase (changeCase [0x71, 0xC3, 0xED, 0xA0, 0x80, 0xFF, 0x80, 0x61] .utf8 true) .utf8 true =
      changeCase [0x71, 0xC3, 0xED, 0xA0, 0x80, 0xFF, 0x80, 0x61] .utf8 true :=
  (changeCase_changeCase_iff _ _ _ (by decide +kernel)).mpr fun _ => by decide +kernel

/-- A high surrogate and an overlong low one: the second pass joins what the first has written. -/
theorem changeCase_joins :
    changeCase (changeCase [0xED, 0xA0, 0x80, 0xF0, 0x8D, 0xB0, 0x80] .utf8 false) .utf8 false ≠
      changeCase [0xED, 0xA0, 0x80, 0xF0, 0x8D, 0xB0, 0x80] .utf8 false := by
  decide +kernel

end Qcvm.Stdlib

import Qcvm.Lib.Cuts
import Qcvm.Stdlib.Charset

/-!
# Character and byte offsets

The characters of a string cut it into pieces, however malformed the string is (`sum_lens`).
`byteOffset` and `charOffset` are then the two directions between the pieces and the offsets of the
string (`byteOffset_eq`, `charOffset_eq`).
-/

namespace Qcvm.Stdlib

open Lib

variable {s : List Byte} {b : Byte} {scheme : CharScheme} {ofs o i : Nat} {c : CharAt}

/-! ## A character lies in the string -/

/-- Every byte of a sequence is there. -/
lemma decodeSequence_len_le {n least : Nat} {mask : Byte} (h : s ≠ []) :
    (decodeSequence s b n mask least).len ≤ s.length := by
  have long := List.length_pos_iff.mpr h
  unfold decodeSequence
  split
  next present =>
    show n ≤ s.length
    by_contra short
    have last : n - 1 ∈ List.range' 1 (n - 1) := by
      rw [List.mem_range'_1]
      omega
    have here := List.all_eq_true.mp present _ last
    unfold isCont at here
    rw [List.getElem?_eq_none (by omega)] at here
    cases here
  next => exact long

/-- A sequence does not go past the end. -/
lemma decodeUtf8Basic_len_le (h : s ≠ []) : (decodeUtf8Basic s).len ≤ s.length := by
  cases s with
  | nil => exact absurd rfl h
  | cons b s =>
    simp only [decodeUtf8Basic]
    split_ifs
    · exact Nat.succ_pos _
    · exact Nat.succ_pos _
    · exact decodeSequence_len_le h

/-- A character of UTF-8 does not go past the end. -/
lemma decodeUtf8_len_le (h : s ≠ []) : (decodeUtf8 s).len ≤ s.length := by
  have first := decodeUtf8Basic_len_le h
  unfold decodeUtf8
  dsimp only
  split_ifs with clean high
  · rw [markIllegal_len]
    unfold joinSurrogates
    split_ifs with joined
    · have rest : s.drop (decodeUtf8Basic s).len ≠ [] := by
        intro empty
        rw [empty] at joined
        exact absurd joined.2 (by decide)
      have second := decodeUtf8Basic_len_le rest
      rw [List.length_drop] at second
      dsimp only
      omega
    · exact first
  · rw [markIllegal_len]
    exact first
  · exact first

/-- A character does not go past the end. -/
lemma decode_len_le (h : s ≠ []) : (decode s scheme).2 ≤ s.length := by
  cases scheme with
  | utf8 => exact decodeUtf8_len_le h
  | iso8859 => exact List.length_pos_iff.mpr h
  | quake => exact List.length_pos_iff.mpr h

/-! ## The characters tile the string -/

/-- The lengths of the characters. -/
def lens (s : List Byte) (scheme : CharScheme) : List Nat := (chars s scheme).map CharAt.len

/-- The empty string has no characters. -/
lemma charsFrom_nil : charsFrom scheme ofs [] = [] := by
  rw [charsFrom, dif_pos rfl]

/-- The first character and those after it. -/
lemma charsFrom_cons (h : s ≠ []) :
    charsFrom scheme ofs s = ⟨ofs, (decode s scheme).1, (decode s scheme).2⟩ ::
      charsFrom scheme (ofs + (decode s scheme).2) (s.drop (decode s scheme).2) := by
  rw [charsFrom, dif_neg h]

/-- The lengths and code points do not depend on where the string starts. -/
lemma charsFrom_shift : charsFrom scheme (ofs + o) s =
    (charsFrom scheme o s).map fun c => { c with ofs := ofs + c.ofs } := by
  fun_induction charsFrom scheme o s with
  | case1 o =>
    rw [charsFrom_nil]
    rfl
  | case2 o s some ih =>
    rw [charsFrom_cons some, List.map_cons, Nat.add_assoc, ih]

/-- The empty string has no lengths. -/
lemma lens_nil : lens [] scheme = [] := by
  unfold lens chars
  rw [charsFrom_nil]
  rfl

/-- The length of the first character and those after it. -/
lemma lens_cons (h : s ≠ []) :
    lens s scheme = (decode s scheme).2 :: lens (s.drop (decode s scheme).2) scheme := by
  unfold lens chars
  rw [charsFrom_cons h, List.map_cons, Nat.add_comm 0, charsFrom_shift, List.map_map]
  rfl

/-- A character takes at least a byte. -/
lemma len_pos (mem : c ∈ charsFrom scheme ofs s) : 0 < c.len := by
  fun_induction charsFrom scheme ofs s with
  | case1 => cases mem
  | case2 ofs s some ih =>
    cases mem with
    | head => exact decode_pos scheme
    | tail _ mem => exact ih mem

/-- The lengths are positive. -/
lemma lens_pos : ∀ n ∈ lens s scheme, 0 < n := by
  intro n mem
  obtain ⟨c, listed, rfl⟩ := List.mem_map.mp mem
  exact len_pos listed

/-- The characters take the whole string. -/
lemma sum_lens : (lens s scheme).sum = s.length := by
  induction long : s.length using Nat.strong_induction_on generalizing s with
  | h n ih =>
    by_cases some : s = []
    · subst some
      rw [lens_nil, ← long]
      rfl
    · have pos := decode_pos (s := s) scheme
      have fits := @decode_len_le s scheme some
      have shorter : (s.drop (decode s scheme).2).length < n := by
        rw [List.length_drop]
        omega
      rw [lens_cons some, List.sum_cons, ih _ shorter rfl, List.length_drop, ← long]
      exact Nat.add_sub_cancel' fits

/-- The pieces follow each other from `ofs` to `stop`, none of them empty. -/
def Tiled : Nat → Nat → List CharAt → Prop
  | ofs, stop, [] => ofs = stop
  | ofs, stop, c :: cs => c.ofs = ofs ∧ 1 ≤ c.len ∧ Tiled (ofs + c.len) stop cs

/-- The characters from an offset on follow each other to the end. -/
lemma tiled_charsFrom : Tiled ofs (ofs + s.length) (charsFrom scheme ofs s) := by
  fun_induction charsFrom scheme ofs s with
  | case1 ofs => rfl
  | case2 ofs s some ih =>
    refine ⟨rfl, decode_pos scheme, ?_⟩
    have fits := @decode_len_le s scheme some
    rw [List.length_drop, Nat.add_assoc, Nat.add_sub_cancel' fits] at ih
    exact ih

/-- A character starts where its piece does. -/
lemma Tiled.start {cs : List CharAt} {stop : Nat} (h : Tiled ofs stop cs) (here : cs[i]? = some c) :
    c.ofs = ofs + startOf (cs.map CharAt.len) i := by
  induction cs generalizing ofs i with
  | nil => cases here
  | cons d cs ih =>
    obtain ⟨start, -, rest⟩ := h
    cases i with
    | zero =>
      cases here
      exact start
    | succ i =>
      rw [List.map_cons, startOf_cons, ih rest here]
      exact Nat.add_assoc _ _ _

/-- Counting the characters that end in time counts the pieces. -/
lemma Tiled.takeWhile {cs : List CharAt} {stop : Nat} (h : Tiled ofs stop cs) (le : ofs ≤ o) :
    (cs.takeWhile fun c => c.ofs + c.len ≤ o).length = endedBy (cs.map CharAt.len) (o - ofs) := by
  induction cs generalizing ofs with
  | nil => rfl
  | cons c cs ih =>
    obtain ⟨rfl, -, rest⟩ := h
    rw [List.map_cons, endedBy, List.takeWhile_cons]
    have same : c.len ≤ o - c.ofs ↔ c.ofs + c.len ≤ o := Nat.le_sub_iff_add_le' le
    by_cases ended : c.ofs + c.len ≤ o
    · rw [if_pos (decide_eq_true ended), if_pos (same.mpr ended), List.length_cons, ih rest ended,
        Nat.sub_sub]
    · rw [if_neg (by simpa using ended), if_neg (fun fits => ended (same.mp fits))]
      rfl

/-- The characters of a string follow each other from its start to its end. -/
lemma tiled_chars : Tiled 0 s.length (chars s scheme) := by
  have tiled := @tiled_charsFrom s scheme 0
  rw [Nat.zero_add] at tiled
  exact tiled

/-! ## A string cut between characters -/

section Cut

variable {m n least : Nat} {mask : Byte}

/-- Cutting behind a byte keeps whether it is a continuation. -/
lemma isCont_take (h : i < m) : isCont (s.take m) i = isCont s i := by
  unfold isCont
  rw [List.getElem?_take_of_lt h]

/-- A sequence is read the same from a string that is cut behind it; one that is cut is malformed. -/
lemma decodeSequence_take (two : 2 ≤ n) :
    decodeSequence (s.take m) b n mask least = decodeSequence s b n mask least ∨
      m < (decodeSequence s b n mask least).len ∧
        (decodeSequence (s.take m) b n mask least).error ≠ none := by
  by_cases fits : n ≤ m
  · left
    have conts : (List.range' 1 (n - 1)).all (isCont (s.take m)) =
        (List.range' 1 (n - 1)).all (isCont s) := by
      rw [Bool.eq_iff_iff, List.all_eq_true, List.all_eq_true]
      refine forall₂_congr fun i mem => ?_
      rw [isCont_take ((List.mem_range'_1.mp mem).2.trans_le (by omega))]
    unfold decodeSequence
    rw [conts, List.take_take, Nat.min_eq_left fits]
  · -- The last continuation byte is gone.
    have cut : ¬(List.range' 1 (n - 1)).all (isCont (s.take m)) := by
      intro all
      have here := List.all_eq_true.mp all (n - 1) (List.mem_range'_1.mpr ⟨by omega, by omega⟩)
      unfold isCont at here
      rw [List.getElem?_eq_none (List.length_take_le _ _ |>.trans (by omega))] at here
      cases here
    unfold decodeSequence
    rw [if_neg cut]
    split
    · exact Or.inr ⟨Nat.not_le.mp fits, by simp⟩
    · exact Or.inl rfl

/-- A lead byte announces at least two bytes. -/
lemma two_le_leadOf : 2 ≤ (leadOf b).1 := by
  unfold leadOf
  split_ifs <;> simp

/-- A cut string decodes as the whole one, or the sequence is cut. -/
lemma decodeUtf8Basic_take (pos : 0 < m) :
    decodeUtf8Basic (s.take m) = decodeUtf8Basic s ∨
      m < (decodeUtf8Basic s).len ∧ (decodeUtf8Basic (s.take m)).error ≠ none := by
  cases s with
  | nil => exact Or.inl (by rw [List.take_nil])
  | cons b s =>
    obtain ⟨m, rfl⟩ := Nat.exists_eq_add_of_lt pos
    have cut := @decodeSequence_take (b :: s) b (0 + m + 1) (leadOf b).1 (leadOf b).2.2
      (leadOf b).2.1 two_le_leadOf
    rw [List.take_succ_cons] at cut ⊢
    simp only [decodeUtf8Basic]
    split_ifs
    · exact Or.inl rfl
    · exact Or.inl rfl
    · exact cut

/-- The bytes that a character takes, its low surrogate included. -/
lemma decodeUtf8_len : (decodeUtf8 s).len = (decodeUtf8Basic s).len +
    if ((decodeUtf8Basic s).error = none ∧ IsHigh (decodeUtf8Basic s).ch) ∧
        (decodeUtf8Basic (s.drop (decodeUtf8Basic s).len)).error = none ∧
          IsLow (decodeUtf8Basic (s.drop (decodeUtf8Basic s).len)).ch
    then (decodeUtf8Basic (s.drop (decodeUtf8Basic s).len)).len else 0 := by
  unfold decodeUtf8 joinSurrogates
  dsimp only
  by_cases clean : (decodeUtf8Basic s).error = none
  · by_cases high : IsHigh (decodeUtf8Basic s).ch
    · rw [if_pos clean, if_pos high, markIllegal_len]
      simp only [clean, high, true_and]
      split_ifs <;> rfl
    · rw [if_pos clean, if_neg high, markIllegal_len, if_neg (fun joined => high joined.1.2)]
      rfl
  · rw [if_neg clean, if_neg (fun joined => clean joined.1.1)]
    rfl

/-- A character is read the same from a string that is cut behind it. -/
lemma decodeUtf8_take (fits : (decodeUtf8 s).len ≤ m) :
    (decodeUtf8 (s.take m)).len = (decodeUtf8 s).len := by
  have pos := @decodeUtf8_len_pos s
  have first : decodeUtf8Basic (s.take m) = decodeUtf8Basic s := by
    rcases @decodeUtf8Basic_take s m (by omega) with same | ⟨cut, _⟩
    · exact same
    · rw [decodeUtf8_len] at fits
      omega
  rw [decodeUtf8_len] at fits ⊢
  rw [decodeUtf8_len, first, List.drop_take]
  congr 1
  set rest := s.drop (decodeUtf8Basic s).len
  set left := m - (decodeUtf8Basic s).len with leftDef
  by_cases more : 0 < left
  · rcases @decodeUtf8Basic_take rest left more with same | ⟨cut, unclean⟩
    · rw [same]
    · rw [if_neg fun joined => unclean joined.2.1, if_neg]
      intro joined
      rw [if_pos joined] at fits
      omega
  · have none : left = 0 := Nat.eq_zero_of_not_pos more
    rw [none, List.take_zero, if_neg (fun joined => absurd joined.2.2 (by decide)), if_neg]
    intro joined
    have low := @decodeUtf8Basic_len_pos rest
    rw [if_pos joined] at fits
    omega

/-- A string cut behind its first character decodes to one of that length. -/
lemma decode_take (fits : (decode s scheme).2 ≤ m) :
    (decode (s.take m) scheme).2 = (decode s scheme).2 := by
  cases scheme with
  | utf8 => exact decodeUtf8_take fits
  | iso8859 => rfl
  | quake => rfl

/-- A string that is cut between two characters has the characters before the cut. -/
lemma lens_take : lens (s.take (startOf (lens s scheme) i)) scheme = (lens s scheme).take i := by
  induction i generalizing s with
  | zero => rw [startOf_zero, List.take_zero, lens_nil, List.take_zero]
  | succ i ih =>
    by_cases some : s = []
    · subst some
      rw [List.take_nil, lens_nil, List.take_nil]
    · have pos := decode_pos (s := s) scheme
      rw [lens_cons some, startOf_cons, List.take_succ_cons, ← ih]
      set d := (decode s scheme).2
      set stop := startOf (lens (s.drop d) scheme) i
      have kept : s.take (d + stop) ≠ [] := by
        rw [Ne, List.take_eq_nil_iff]
        rintro (none | empty)
        · omega
        · exact some empty
      rw [lens_cons kept, decode_take (Nat.le_add_right d stop), List.drop_take,
        Nat.add_sub_cancel_left]

end Cut

/-! ## The offsets -/

/-- A scheme of single bytes. -/
lemma lens_of_single (single : ∀ s, (decode s scheme).2 = 1) :
    lens s scheme = List.replicate s.length 1 := by
  induction s with
  | nil => exact lens_nil
  | cons b s ih =>
    rw [lens_cons (List.cons_ne_nil b s), single, List.drop_succ_cons, List.drop_zero, ih]
    rfl

/-- In a scheme of single bytes characters start at every byte. -/
lemma startOf_replicate {n : Nat} : startOf (List.replicate n 1) i = min i n := by
  rw [startOf, List.take_replicate, List.sum_replicate_nat, Nat.mul_one]

/-- `char_count` counts the lengths. -/
lemma charCount_eq : charCount s scheme = (lens s scheme).length := by
  cases scheme with
  | utf8 =>
    rw [lens, List.length_map]
    rfl
  | quake =>
    rw [lens_of_single fun _ => rfl, List.length_replicate]
    rfl
  | iso8859 =>
    rw [lens_of_single fun _ => rfl, List.length_replicate]
    rfl

/-- `byte_offset` is where the character starts. -/
lemma byteOffset_eq : byteOffset s i scheme = startOf (lens s scheme) i := by
  cases scheme with
  | utf8 =>
    unfold byteOffset
    cases here : (chars s .utf8)[i]? with
    | none =>
      have past := List.getElem?_eq_none_iff.mp here
      rw [startOf_of_le (by rwa [lens, List.length_map]), sum_lens]
      rfl
    | some c =>
      have start := tiled_chars.start here
      rw [Nat.zero_add] at start
      exact start
  | quake =>
    rw [lens_of_single fun _ => rfl, startOf_replicate]
    rfl
  | iso8859 =>
    rw [lens_of_single fun _ => rfl, startOf_replicate]
    rfl

/-- In UTF-8 `char_offset` counts the characters that have ended. -/
lemma charOffset_eq : charOffset s o .utf8 = endedBy (lens s .utf8) o :=
  tiled_chars.takeWhile (Nat.zero_le o)

/-- The character at an index. -/
lemma char_at (h : i < (lens s scheme).length) : ∃ c ∈ chars s scheme,
    c.ofs = startOf (lens s scheme) i ∧ c.ofs + c.len = startOf (lens s scheme) (i + 1) := by
  have inside : i < (chars s scheme).length := by rwa [lens, List.length_map] at h
  have start := tiled_chars.start (List.getElem?_eq_getElem inside)
  rw [Nat.zero_add] at start
  refine ⟨(chars s scheme)[i], List.getElem_mem inside, start, ?_⟩
  rw [start, startOf_add, startOf, startOf, startOf, List.drop_eq_getElem_cons h,
    List.take_succ_cons, List.take_zero, List.sum_singleton]
  simp only [lens, List.getElem_map]

/-- The decoded characters tile the string; the offsets are monotone and adjoint. Going to bytes and
back is the identity, going to characters and back leads to the start of the character. -/
theorem offsets_adjoint (s : List Byte) :
    Tiled 0 s.length (chars s .utf8) ∧ Monotone (byteOffset s · .utf8) ∧
      Monotone (charOffset s · .utf8) ∧
      (∀ i ≤ charCount s .utf8, charOffset s (byteOffset s i .utf8) .utf8 = i) ∧
      (∀ o, byteOffset s (charOffset s o .utf8) .utf8 ≤ o) ∧
      ∀ o < s.length, ∃ c ∈ chars s .utf8, c.ofs ≤ o ∧ o < c.ofs + c.len ∧
        byteOffset s (charOffset s o .utf8) .utf8 = c.ofs := by
  refine ⟨tiled_chars, ?_, ?_, ?_, ?_, ?_⟩
  · intro i j le
    show byteOffset s i .utf8 ≤ byteOffset s j .utf8
    rw [byteOffset_eq, byteOffset_eq]
    exact startOf_mono le
  · intro o p le
    show charOffset s o .utf8 ≤ charOffset s p .utf8
    rw [charOffset_eq, charOffset_eq]
    exact endedBy_mono le
  · intro i le
    rw [charCount_eq] at le
    rw [byteOffset_eq, charOffset_eq]
    exact endedBy_startOf lens_pos le
  · intro o
    rw [byteOffset_eq, charOffset_eq]
    exact startOf_endedBy_le
  · intro o inside
    rw [← @sum_lens s .utf8] at inside
    obtain ⟨index, before⟩ := endedBy_contains inside
    obtain ⟨c, mem, start, stop⟩ := char_at index
    rw [byteOffset_eq, charOffset_eq]
    exact ⟨c, mem, start.trans_le startOf_endedBy_le, before.trans_eq stop.symm, start.symm⟩

end Qcvm.Stdlib

import Mathlib.Data.List.Chain
import Mathlib.Data.Nat.Bits
import Qcvm.Stdlib.Offsets

/-!
# UTF-8 round trip

An encoded code point decodes to itself whatever follows it (`decodeUtf8Basic_encodeUtf8`), so a
list of them is read back one by one. Only a high surrogate looks at what follows: the decoder joins
it with a low surrogate, which is why a list with such a pair is not read back.
-/

namespace Qcvm.Stdlib

open Lib

variable {s rest : List Byte} {b : Byte} {ch n k m ofs x : Nat} {l : List Nat}

/-! ## One sequence -/

/-- The payload of a continuation byte is read back. -/
lemma contByte_of_lt : ∀ x < 64, isContByte (BitVec.ofNat 8 (0x80 ||| x)) = true ∧
    (BitVec.ofNat 8 (0x80 ||| x) &&& 0x3F).toNat = x := by
  decide +kernel

/-- The smallest value that takes `n` bytes. -/
def leastOf (n : Nat) : Nat := [0, 0, 0x80, 0x800, 0x10000, 0x200000, 0x4000000].getD n 0

/-- The lead byte of `n` bytes with this payload. -/
def leadWith (n x : Nat) : Byte := BitVec.ofNat 8 ((0xFF00 >>> n &&& 0xFF) ||| x)

/-- A lead byte is recognized and its payload read back. -/
lemma leadWith_of_lt : ∀ n < 7, ∀ x < 32, 2 ≤ n ∧ x < 2 ^ (7 - n) →
    ¬leadWith n x ≤ 0x7F ∧ ¬(leadWith n x ≤ 0xBF ∨ 0xFE ≤ leadWith n x) ∧
      (leadOf (leadWith n x)).1 = n ∧ (leadOf (leadWith n x)).2.2 = leastOf n ∧
      (leadWith n x &&& (leadOf (leadWith n x)).2.1).toNat = x := by
  decide +kernel

/-- A continuation byte carries six bits. -/
lemma payload_lt : ch >>> (k * 6) &&& 0x3F < 64 := by
  have mask : (0x3F : Nat) = 2 ^ 6 - 1 := rfl
  rw [mask, Nat.and_two_pow_sub_one_eq_mod]
  exact Nat.mod_lt _ (by decide)

/-- A continuation byte is one. -/
lemma isContByte_contByte : isContByte (contByte ch k) = true := (contByte_of_lt _ payload_lt).1

/-- Appending a continuation byte shifts six more bits in. -/
lemma appendCont_contByte : appendCont (ch >>> ((k + 1) * 6)) (contByte ch k) = ch >>> (k * 6) := by
  have mask : (0x3F : Nat) = 2 ^ 6 - 1 := rfl
  have split : ch >>> ((k + 1) * 6) = ch >>> (k * 6) / 64 := by
    rw [Nat.succ_mul, Nat.shiftRight_add, Nat.shiftRight_eq_div_pow (ch >>> (k * 6))]
  have low := @payload_lt ch k
  unfold appendCont contByte
  rw [(contByte_of_lt _ low).2, split]
  rw [mask, Nat.and_two_pow_sub_one_eq_mod] at low ⊢
  rw [← Nat.shiftLeft_add_eq_or_of_lt low, Nat.shiftLeft_eq]
  exact Nat.div_add_mod' _ _

@[simp] lemma length_contBytes : (contBytes ch m).length = m := by
  induction m with
  | zero => rfl
  | succ m ih =>
    rw [contBytes, List.length_cons, ih]

/-- The continuation bytes and the bits above them are the code point. -/
lemma foldl_contBytes : (contBytes ch m).foldl appendCont (ch >>> (m * 6)) = ch := by
  induction m with
  | zero => rw [contBytes, List.foldl_nil, Nat.zero_mul, Nat.shiftRight_zero]
  | succ m ih =>
    rw [contBytes, List.foldl_cons, appendCont_contByte]
    exact ih

/-- The continuation bytes are such. -/
lemma all_contBytes (h : b ∈ contBytes ch m) : isContByte b = true := by
  induction m with
  | zero => cases h
  | succ m ih =>
    cases h with
    | head => exact isContByte_contByte
    | tail _ mem => exact ih mem

/-- A sequence is read back, whatever follows it. -/
lemma decode_sequence (low : 2 ≤ n) (high : n < 7) (fits : ch >>> ((n - 1) * 6) < 2 ^ (7 - n))
    (clean : leastOf n ≤ ch ∨ n = 2 ∧ ch = 0) :
    decodeUtf8Basic (leadByte n ch :: contBytes ch (n - 1) ++ rest) = ⟨ch, n, none⟩ := by
  have small : ch >>> ((n - 1) * 6) < 32 := by
    refine Nat.lt_of_lt_of_le fits ?_
    exact Nat.pow_le_pow_right (by decide) (Nat.sub_le_sub_left low 7)
  obtain ⟨notAscii, notStray, length, least, payload⟩ := leadWith_of_lt n high _ small ⟨low, fits⟩
  change ¬leadByte n ch ≤ 0x7F at notAscii
  change ¬(leadByte n ch ≤ 0xBF ∨ 0xFE ≤ leadByte n ch) at notStray
  change (leadOf (leadByte n ch)).1 = n at length
  change (leadOf (leadByte n ch)).2.2 = leastOf n at least
  change (leadByte n ch &&& (leadOf (leadByte n ch)).2.1).toNat = ch >>> ((n - 1) * 6) at payload
  have present : (List.range' 1 (n - 1)).all
      (isCont (leadByte n ch :: (contBytes ch (n - 1) ++ rest))) = true := by
    rw [List.all_eq_true]
    intro i mem
    obtain ⟨from', upto⟩ := List.mem_range'_1.mp mem
    obtain ⟨j, rfl⟩ := Nat.exists_eq_add_of_le' from'
    have inside : j < (contBytes ch (n - 1)).length := by
      rw [length_contBytes]
      omega
    unfold isCont
    rw [List.getElem?_cons_succ, List.getElem?_append_left inside,
      List.getElem?_eq_getElem inside]
    exact all_contBytes (List.getElem_mem inside)
  have payloads : ((leadByte n ch :: (contBytes ch (n - 1) ++ rest)).take n).drop 1 =
      contBytes ch (n - 1) := by
    obtain ⟨j, rfl⟩ := Nat.exists_eq_add_of_le' low
    rw [List.take_succ_cons, List.drop_succ_cons, List.drop_zero]
    exact List.take_left' length_contBytes
  rw [List.cons_append, decodeUtf8Basic, if_neg notAscii, if_neg notStray, length, least,
    decodeSequence, if_pos present, payloads, payload, foldl_contBytes]
  dsimp only
  rw [if_pos clean]

/-- A sequence has room for its code point, and a shorter one does not. -/
lemma sequenceLength_spec (low : 0x7F < ch) (high : ch ≤ 0x7FFFFFFF) :
    2 ≤ sequenceLength ch ∧ sequenceLength ch < 7 ∧
      ch >>> ((sequenceLength ch - 1) * 6) < 2 ^ (7 - sequenceLength ch) ∧
      leastOf (sequenceLength ch) ≤ ch := by
  rw [Nat.shiftRight_eq_div_pow]
  unfold sequenceLength leastOf
  split_ifs with two three four five
  · exact ⟨by decide, by decide, Nat.div_lt_of_lt_mul (Nat.lt_succ_of_le two), low⟩
  · exact ⟨by decide, by decide, Nat.div_lt_of_lt_mul (Nat.lt_succ_of_le three),
      Nat.lt_of_not_le two⟩
  · exact ⟨by decide, by decide, Nat.div_lt_of_lt_mul (Nat.lt_succ_of_le four),
      Nat.lt_of_not_le three⟩
  · exact ⟨by decide, by decide, Nat.div_lt_of_lt_mul (Nat.lt_succ_of_le five),
      Nat.lt_of_not_le four⟩
  · exact ⟨by decide, by decide, Nat.div_lt_of_lt_mul (Nat.lt_succ_of_le high),
      Nat.lt_of_not_le five⟩

/-- An encoded code point is read back, with the length of its encoding, whatever follows it. -/
lemma decodeUtf8Basic_encodeUtf8 (high : ch ≤ 0x7FFFFFFF) :
    decodeUtf8Basic (encodeUtf8 ch ++ rest) = ⟨ch, (encodeUtf8 ch).length, none⟩ := by
  unfold encodeUtf8
  rw [if_neg (Nat.not_lt.mpr high)]
  dsimp only
  split_ifs with zero ascii
  · subst zero
    exact decode_sequence (n := 2) (by decide) (by decide) (by decide) (Or.inr ⟨rfl, rfl⟩)
  · have value : (BitVec.ofNat 8 ch).toNat = ch := by
      rw [BitVec.toNat_ofNat]
      exact Nat.mod_eq_of_lt (Nat.lt_of_le_of_lt ascii (by decide))
    have small : BitVec.ofNat 8 ch ≤ 0x7F := by
      rw [BitVec.le_def, value]
      exact ascii
    rw [List.singleton_append, decodeUtf8Basic, if_pos small, value]
    rfl
  · obtain ⟨two, six, fits, least⟩ := sequenceLength_spec (Nat.lt_of_not_le ascii) high
    rw [decode_sequence two six fits (Or.inl least), List.length_cons, length_contBytes,
      Nat.sub_add_cancel (Nat.le_of_succ_le two)]

/-- A code point is encoded in at least a byte. -/
lemma encodeUtf8_ne_nil : encodeUtf8 ch ≠ [] := by
  unfold encodeUtf8
  dsimp only
  split_ifs <;> exact List.cons_ne_nil _ _

/-! ## A list of code points -/

/-- No high surrogate is directly followed by a low one. -/
def Unpaired (l : List Nat) : Prop := l.IsChain fun a b => ¬(IsHigh a ∧ IsLow b)

instance (l : List Nat) : Decidable (Unpaired l) := inferInstanceAs (Decidable (List.IsChain _ _))

/-- A sequence whose follower does not join it decodes as it is. -/
lemma decodeUtf8_of_basic (clean : decodeUtf8Basic s = ⟨ch, n, none⟩)
    (alone : IsHigh ch → ¬((decodeUtf8Basic (s.drop n)).error = none ∧
      IsLow (decodeUtf8Basic (s.drop n)).ch)) :
    (decodeUtf8 s).ch = ch ∧ (decodeUtf8 s).len = n := by
  unfold decodeUtf8
  rw [clean]
  dsimp only
  rw [if_pos rfl, markIllegal_ch, markIllegal_len]
  split_ifs with high
  · rw [joinSurrogates, if_neg (alone high)]
    exact ⟨rfl, rfl⟩
  · exact ⟨rfl, rfl⟩

/-- What the decoder finds after a code point of the list: the next one, if there is one. -/
lemma decodeUtf8Basic_flatMap (bound : ∀ c ∈ l, c ≤ 0x7FFFFFFF) :
    decodeUtf8Basic (l.flatMap encodeUtf8) =
      ⟨l.headD 0, (l.head?.map fun c => (encodeUtf8 c).length).getD 1, none⟩ := by
  cases l with
  | nil => rfl
  | cons c l =>
    rw [List.flatMap_cons]
    exact decodeUtf8Basic_encodeUtf8 (bound c List.mem_cons_self)

/-- Zero is no surrogate. -/
lemma not_isLow_zero : ¬IsLow 0 := by decide

/-- The first code point of an unpaired list is read back. -/
lemma decodeUtf8_flatMap (bound : ∀ c ∈ ch :: l, c ≤ 0x7FFFFFFF) (unpaired : Unpaired (ch :: l)) :
    (decodeUtf8 (encodeUtf8 ch ++ l.flatMap encodeUtf8)).ch = ch ∧
      (decodeUtf8 (encodeUtf8 ch ++ l.flatMap encodeUtf8)).len = (encodeUtf8 ch).length := by
  apply decodeUtf8_of_basic
  · exact decodeUtf8Basic_encodeUtf8 (bound ch List.mem_cons_self)
  · intro high
    rw [List.drop_left, decodeUtf8Basic_flatMap fun c mem => bound c (List.mem_cons_of_mem _ mem)]
    intro low
    cases l with
    | nil => exact not_isLow_zero low.2
    | cons d l => exact (List.isChain_cons_cons.mp unpaired).1 ⟨high, low.2⟩

/-- Encoded code points are read back with their lengths, unless a pair of surrogates stands among
them. -/
lemma charsFrom_flatMap (bound : ∀ c ∈ l, c ≤ 0x7FFFFFFF) (unpaired : Unpaired l) :
    (charsFrom .utf8 ofs (l.flatMap encodeUtf8)).map (fun c => (c.ch, c.len)) =
      l.map fun c => (c, (encodeUtf8 c).length) := by
  induction l generalizing ofs with
  | nil =>
    rw [List.flatMap_nil, charsFrom_nil]
    rfl
  | cons c l ih =>
    have first := decodeUtf8_flatMap bound unpaired
    have some : encodeUtf8 c ++ l.flatMap encodeUtf8 ≠ [] :=
      List.append_ne_nil_of_left_ne_nil encodeUtf8_ne_nil _
    have read : decode (encodeUtf8 c ++ l.flatMap encodeUtf8) .utf8 =
        (c, (encodeUtf8 c).length) := Prod.ext first.1 first.2
    rw [List.flatMap_cons, charsFrom_cons some, read, List.drop_left, List.map_cons,
      List.map_cons, ih (fun d mem => bound d (List.mem_cons_of_mem _ mem)) unpaired.tail]

/-- Decoding the encodings of a list of code points gives the list back, each code point with the
length of its encoding, unless a low surrogate directly follows a high one. -/
theorem chars_encodeUtf8 (bound : ∀ c ∈ l, c ≤ 0x7FFFFFFF) (unpaired : Unpaired l) :
    (chars (l.flatMap encodeUtf8) .utf8).map (fun c => (c.ch, c.len)) =
      l.map fun c => (c, (encodeUtf8 c).length) :=
  charsFrom_flatMap bound unpaired

/-- A NUL, a letter, lone surrogates and the longest form. -/
theorem chars_encodeUtf8_mixed :
    (chars ([0, 0x41, 0xDC00, 0xD800, 0x7FFFFFFF].flatMap encodeUtf8) .utf8).map
        (fun c => (c.ch, c.len)) =
      [0, 0x41, 0xDC00, 0xD800, 0x7FFFFFFF].map fun c => (c, (encodeUtf8 c).length) :=
  chars_encodeUtf8 (by decide) (by decide)

end Qcvm.Stdlib

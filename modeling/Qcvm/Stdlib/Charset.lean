import Qcvm.Num

/-!
# Character sets

The decoders and encoders of `stdlib/charset.rs`, and the case mappings of `u8`. Code points are
natural numbers: the longest sequence has 31 payload bits, so no shift of the code loses one.
-/

namespace Qcvm.Stdlib

open Lib

/-- `u8::to_ascii_lowercase`. -/
def asciiLower (b : Byte) : Byte := if 65 ≤ b ∧ b ≤ 90 then b + 32 else b

/-- `u8::to_ascii_uppercase`. -/
def asciiUpper (b : Byte) : Byte := if 97 ≤ b ∧ b ≤ 122 then b - 32 else b

/-- How strings are decoded. -/
inductive CharScheme where
  | quake
  | utf8
  | iso8859
  deriving DecidableEq, Repr

/-- The replacement character. -/
def replacement : Nat := 0xFFFD

/-- Why a UTF-8 sequence did not decode cleanly. -/
inductive Utf8Error where
  | malformed
  | illegal
  | loneHighSurrogate
  | lowSurrogate
  deriving DecidableEq, Repr

/-- One decoded character: the code point, the bytes consumed, and the error if the sequence was
not clean. -/
structure Decoded where
  ch : Nat
  len : Nat
  error : Option Utf8Error
  deriving DecidableEq, Repr

/-! ## Decoding -/

def isContByte (b : Byte) : Bool := b &&& 0xC0 == 0x80

/-- `is_cont`: a continuation byte stands at `i`. -/
def isCont (s : List Byte) (i : Nat) : Bool := s[i]?.any isContByte

/-- The sequence length, the payload bits of the lead byte, and the smallest value that is not
overlong. -/
def leadOf (b : Byte) : Nat × Byte × Nat :=
  if b ≤ 0xDF then (2, 0x1F, 0x80)
  else if b ≤ 0xEF then (3, 0x0F, 0x800)
  else if b ≤ 0xF7 then (4, 0x07, 0x10000)
  else if b ≤ 0xFB then (5, 0x03, 0x200000)
  else (6, 0x01, 0x4000000)

/-- Appends the payload of a continuation byte. -/
def appendCont (acc : Nat) (b : Byte) : Nat := acc <<< 6 ||| (b &&& 0x3F).toNat

/-- A sequence with the lead byte `b`, which has `n` bytes and the payload bits `mask`. -/
def decodeSequence (s : List Byte) (b : Byte) (n : Nat) (mask : Byte) (least : Nat) : Decoded :=
  if (List.range' 1 (n - 1)).all (isCont s) then
    let ch := ((s.take n).drop 1).foldl appendCont (b &&& mask).toNat
    ⟨ch, n, if least ≤ ch ∨ n = 2 ∧ ch = 0 then none else some .illegal⟩
  else ⟨replacement, 1, some .malformed⟩

/-- `decode_utf8_basic`: one sequence, without surrogates. -/
def decodeUtf8Basic : List Byte → Decoded
  | [] => ⟨0, 1, none⟩
  | b :: s =>
    if b ≤ 0x7F then ⟨b.toNat, 1, none⟩
    else if b ≤ 0xBF ∨ 0xFE ≤ b then ⟨0xE000 ||| b.toNat, 1, some .malformed⟩
    else decodeSequence (b :: s) b (leadOf b).1 (leadOf b).2.1 (leadOf b).2.2

/-- A high surrogate. -/
def IsHigh (ch : Nat) : Prop := 0xD800 ≤ ch ∧ ch < 0xDC00

/-- A low surrogate. -/
def IsLow (ch : Nat) : Prop := 0xDC00 ≤ ch ∧ ch < 0xE000

instance (ch : Nat) : Decidable (IsHigh ch) := inferInstanceAs (Decidable (_ ∧ _))

instance (ch : Nat) : Decidable (IsLow ch) := inferInstanceAs (Decidable (_ ∧ _))

/-- A high surrogate and the sequence after it: one character if that is a low surrogate. -/
def joinSurrogates (d low : Decoded) : Decoded :=
  if low.error = none ∧ IsLow low.ch then
    { d with
      ch := ((d.ch &&& 0x3FF) <<< 10 ||| (low.ch &&& 0x3FF)) + 0x10000
      len := d.len + low.len }
  else { d with error := some .loneHighSurrogate }

/-- Marks a low surrogate, a non-character or a value that is no code point. -/
def markIllegal (d : Decoded) : Decoded :=
  let d := if IsLow d.ch then { d with error := some .lowSurrogate } else d
  if d.ch = 0xFFFE ∨ d.ch = 0xFFFF ∨ 0x10FFFF < d.ch then { d with error := some .illegal } else d

/-- `decode_utf8`: one character at the start of `s`. -/
def decodeUtf8 (s : List Byte) : Decoded :=
  let d := decodeUtf8Basic s
  if d.error = none then
    markIllegal (if IsHigh d.ch then joinSurrogates d (decodeUtf8Basic (s.drop d.len)) else d)
  else d

/-- The glyph bytes of the Quake scheme. -/
def isSpecial (b : Byte) : Bool :=
  b ≠ 0 && b ≠ 0x0A && b ≠ 0x09 && b ≠ 0x0D && !(0x20 ≤ b && b < 0x80)

/-- `decode`: the code point of the first character and the bytes it takes. -/
def decode (s : List Byte) (scheme : CharScheme) : Nat × Nat :=
  let b := s.headD 0
  match scheme with
  | .utf8 => ((decodeUtf8 s).ch, (decodeUtf8 s).len)
  | .iso8859 => (b.toNat, 1)
  | .quake => (if isSpecial b then 0xE000 ||| b.toNat else b.toNat, 1)

section Length

variable {s : List Byte} {b : Byte}

lemma leadOf_pos : 0 < (leadOf b).1 := by
  unfold leadOf
  split_ifs <;> exact Nat.succ_pos _

lemma decodeSequence_len_pos {n least : Nat} {mask : Byte} (h : 0 < n) :
    0 < (decodeSequence s b n mask least).len := by
  unfold decodeSequence
  split
  · exact h
  · exact Nat.one_pos

lemma decodeUtf8Basic_len_pos : 0 < (decodeUtf8Basic s).len := by
  cases s with
  | nil => exact Nat.one_pos
  | cons b s =>
    simp only [decodeUtf8Basic]
    split_ifs
    · exact Nat.one_pos
    · exact Nat.one_pos
    · exact decodeSequence_len_pos leadOf_pos

@[simp] lemma markIllegal_ch (d : Decoded) : (markIllegal d).ch = d.ch := by
  unfold markIllegal
  dsimp only
  split <;> split <;> rfl

@[simp] lemma markIllegal_len (d : Decoded) : (markIllegal d).len = d.len := by
  unfold markIllegal
  dsimp only
  split <;> split <;> rfl

lemma decodeUtf8_len_pos : 0 < (decodeUtf8 s).len := by
  have pos := @decodeUtf8Basic_len_pos s
  unfold decodeUtf8 joinSurrogates
  dsimp only
  split_ifs with clean high joined
  · rw [markIllegal_len]
    exact Nat.add_pos_left pos _
  · rw [markIllegal_len]
    exact pos
  · rw [markIllegal_len]
    exact pos
  · exact pos

lemma decode_pos (scheme : CharScheme) : 0 < (decode s scheme).2 := by
  cases scheme with
  | utf8 => exact decodeUtf8_len_pos
  | iso8859 => exact Nat.one_pos
  | quake => exact Nat.one_pos

end Length

/-! ## Characters of a string -/

/-- A character of a string: its byte offset, code point and byte length. -/
structure CharAt where
  ofs : Nat
  ch : Nat
  len : Nat
  deriving DecidableEq, Repr

/-- `chars`, from a character on that starts at `ofs`. -/
def charsFrom (scheme : CharScheme) (ofs : Nat) (s : List Byte) : List CharAt :=
  if _h : s = [] then []
  else
    ⟨ofs, (decode s scheme).1, (decode s scheme).2⟩ ::
      charsFrom scheme (ofs + (decode s scheme).2) (s.drop (decode s scheme).2)
termination_by s.length
decreasing_by
  have pos := decode_pos (s := s) scheme
  have long := List.length_pos_iff.mpr _h
  rw [List.length_drop]
  omega

/-- `chars`. -/
def chars (s : List Byte) (scheme : CharScheme) : List CharAt := charsFrom scheme 0 s

/-- `char_count`. -/
def charCount (s : List Byte) : CharScheme → Nat
  | .utf8 => (chars s .utf8).length
  | _ => s.length

/-- `byte_offset`: where character `index` starts, the end if there are fewer. -/
def byteOffset (s : List Byte) (index : Nat) : CharScheme → Nat
  | .utf8 => (chars s .utf8)[index]?.elim s.length CharAt.ofs
  | _ => min index s.length

/-- `char_offset`: the number of characters that end at or before `ofs`. -/
def charOffset (s : List Byte) (ofs : Nat) : CharScheme → Nat
  | .utf8 => ((chars s .utf8).takeWhile fun c => c.ofs + c.len ≤ ofs).length
  | _ => min ofs s.length

/-! ## Encoding -/

/-- `hex_digit`. -/
def hexDigitOf (v : Nat) : Byte :=
  if v % 16 < 10 then BitVec.ofNat 8 (48 + v % 16) else BitVec.ofNat 8 (87 + v % 16)

/-- A number in hexadecimal. -/
def hexText (v : Nat) : List Byte := (Nat.toDigits 16 v).map fun c => BitVec.ofNat 8 c.toNat

/-- `encode_markup`: the markup for a character that the scheme cannot represent. -/
def encodeMarkup (ch : Nat) : List Byte :=
  if 0xFFFF < ch then 94 :: 123 :: hexText ch ++ [125]
  else 94 :: 85 :: [12, 8, 4, 0].map fun shift => hexDigitOf (ch >>> shift)

/-- The number of bytes of the sequence for a code point above `0x7F`. -/
def sequenceLength (ch : Nat) : Nat :=
  if ch ≤ 0x7FF then 2
  else if ch ≤ 0xFFFF then 3
  else if ch ≤ 0x1FFFFF then 4
  else if ch ≤ 0x3FFFFFF then 5
  else 6

/-- The lead byte of a sequence of `n` bytes. -/
def leadByte (n ch : Nat) : Byte :=
  BitVec.ofNat 8 ((0xFF00 >>> n &&& 0xFF) ||| ch >>> ((n - 1) * 6))

/-- The continuation byte that has `6 * k` payload bits after it. -/
def contByte (ch k : Nat) : Byte := BitVec.ofNat 8 (0x80 ||| (ch >>> (k * 6) &&& 0x3F))

/-- The last `n` continuation bytes of a sequence. -/
def contBytes (ch : Nat) : Nat → List Byte
  | 0 => []
  | n + 1 => contByte ch n :: contBytes ch n

/-- `encode_utf8`: a NUL becomes the overlong `C0 80`, values above `0x7FFFFFFF` the replacement
character. -/
def encodeUtf8 (ch : Nat) : List Byte :=
  let ch := if 0x7FFFFFFF < ch then replacement else ch
  if ch = 0 then [0xC0, 0x80]
  else if ch ≤ 0x7F then [BitVec.ofNat 8 ch]
  else leadByte (sequenceLength ch) ch :: contBytes ch (sequenceLength ch - 1)

/-- The characters that a single-byte scheme encodes as one byte. -/
def isDirect (ch : Nat) : CharScheme → Bool
  | .utf8 => false
  | .quake =>
    (0x20 ≤ ch && ch < 0x80) || ch = 0x09 || ch = 0x0A || ch = 0x0B || ch = 0x0D ||
      (0xE000 ≤ ch && ch ≤ 0xE0FF && !(ch = 0xE009 || ch = 0xE00A || ch = 0xE00D))
  | .iso8859 => ch < 0x100 || (0xE020 ≤ ch && ch < 0xE080)

/-- `encode`: characters that the scheme cannot represent become `?`, or markup. -/
def encode (ch : Nat) (scheme : CharScheme) (markup : Bool) : List Byte :=
  match scheme with
  | .utf8 => encodeUtf8 ch
  | scheme =>
    if isDirect ch scheme then [BitVec.ofNat 8 (ch &&& 0xFF)]
    else if markup then encodeMarkup ch
    else [63]

end Qcvm.Stdlib

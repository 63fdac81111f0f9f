import Qcvm.Stdlib.Offsets
import Qcvm.Stdlib.Strtol

/-!
# The output of printf conversions

The `printf` engine of `stdlib/format.rs` for integers and strings, and the capped buffer that it
writes to. A conversion pads from lengths alone, so that it writes a fixed text (`Sink.write`), of
which the cap cuts off the end. The one exception is `fmt_str_chars`: without a precision it takes as many
characters as the buffer has room for bytes, and pads for those.
-/

namespace Qcvm.Stdlib

open Lib

/-- `usize::MAX`. -/
def usizeMax : Nat := 18446744073709551615

/-- `usize::saturating_add`. -/
def addUsize (a b : Nat) : Nat := min (a + b) usizeMax

/-! ## The sink -/

/-- `Sink`: a byte buffer that drops output beyond a cap. -/
@[ext]
structure Sink where
  buf : List Byte
  cap : Nat
  fits : buf.length ≤ cap
  small : cap ≤ usizeMax

namespace Sink

/-- `Sink::new`. -/
def new (cap : Nat) (small : cap ≤ usizeMax) : Sink := ⟨[], cap, Nat.zero_le _, small⟩

/-- `room`: the bytes that still fit. -/
def room (k : Sink) : Nat := k.cap - k.buf.length

/-- `push`. -/
def push (k : Sink) (b : Byte) : Sink :=
  if h : 0 < k.room then
    { k with
      buf := k.buf ++ [b]
      fits := by
        have room := Nat.lt_of_sub_pos h
        rw [List.length_append]
        exact room }
  else k

/-- `extend`: as much of `s` as fits. -/
def extend (k : Sink) (s : List Byte) : Sink :=
  { k with
    buf := k.buf ++ s.take (min s.length k.room)
    fits := by
      have room := Nat.add_sub_of_le k.fits
      rw [List.length_append, List.length_take]
      unfold Sink.room
      omega }

/-- `fill`: `n` copies of `b`, as many as fit. -/
def fill (k : Sink) (b : Byte) (n : Nat) : Sink :=
  { k with
    buf := k.buf ++ List.replicate (min n k.room) b
    fits := by
      have room := Nat.add_sub_of_le k.fits
      rw [List.length_append, List.length_replicate]
      unfold Sink.room
      omega }

/-- The same contents without a limit. -/
def unlimited (k : Sink) : Sink :=
  { k with
    cap := usizeMax
    fits := k.fits.trans k.small
    small := le_rfl }

/-- The meaning of the operations: a text behind the contents, cut off at the cap. -/
def write (k : Sink) (s : List Byte) : Sink :=
  { k with
    buf := (k.buf ++ s).take k.cap
    fits := List.length_take_le _ _ }

variable {k : Sink} {b : Byte} {s t : List Byte} {n : Nat}

@[simp] lemma write_cap : (k.write s).cap = k.cap := rfl

/-- A write adds the bytes that fit. -/
lemma write_buf : (k.write s).buf = k.buf ++ s.take k.room := by
  change (k.buf ++ s).take k.cap = _
  rw [List.take_append, List.take_of_length_le k.fits]
  rfl

@[simp] lemma write_nil : k.write [] = k := by
  ext1
  · rw [write_buf, List.take_nil, List.append_nil]
  · rfl

/-- One text behind another. -/
@[simp] lemma write_write : (k.write s).write t = k.write (s ++ t) := by
  ext1
  · change ((k.buf ++ s).take k.cap ++ t).take k.cap = (k.buf ++ (s ++ t)).take k.cap
    have first : (k.buf ++ s).take k.cap ++ t.take (k.cap - (k.buf ++ s).length) =
        (k.buf ++ (s ++ t)).take k.cap := by
      rw [← List.take_append, List.append_assoc]
    rw [← first, List.take_append, List.take_take, Nat.min_self, List.length_take]
    congr 2
    omega
  · rfl

/-- A push is a write of one byte. -/
lemma push_eq : k.push b = k.write [b] := by
  unfold push
  split
  next room =>
    ext1
    · rw [write_buf, List.take_of_length_le room]
    · rfl
  next full =>
    ext1
    · rw [write_buf, Nat.eq_zero_of_not_pos full, List.take_zero, List.append_nil]
    · rfl

/-- An extension is a write. -/
lemma extend_eq : k.extend s = k.write s := by
  ext1
  · rw [write_buf]
    change k.buf ++ s.take (min s.length k.room) = _
    rw [Nat.min_comm, ← List.take_take, List.take_length]
  · rfl

/-- A fill is a write of copies of a byte. -/
lemma fill_eq : k.fill b n = k.write (List.replicate n b) := by
  ext1
  · rw [write_buf, List.take_replicate, Nat.min_comm]
    rfl
  · rfl

/-- Padding under a condition. -/
lemma ite_fill {c : Prop} [Decidable c] :
    (if c then k.fill b n else k) = k.write (if c then List.replicate n b else []) := by
  split
  · exact fill_eq
  · exact write_nil.symm

/-- What a cap leaves of a text is the start of what no limit leaves of it. -/
lemma write_truncates : (k.write s).buf = (k.unlimited.write s).buf.take k.cap := by
  change (k.buf ++ s).take k.cap = ((k.buf ++ s).take usizeMax).take k.cap
  rw [List.take_take, Nat.min_eq_left k.small]

end Sink

/-! ## Conversions -/

/-- `Spec`: the flags, the width and the precision of a conversion. -/
structure Spec where
  left : Bool
  zero : Bool
  plus : Bool
  space : Bool
  alt : Bool
  width : Nat
  prec : Option Nat
  deriving DecidableEq, Repr

/-- A space. -/
def spaceByte : Byte := 32

/-- `Pieces`: a formatted number; `lede` is its `prefix`. -/
structure Pieces where
  sign : Option Byte
  lede : List Byte
  lead : Nat
  body : List Byte
  trail : Nat
  suffix : List Byte

/-- The number of bytes of the pieces. -/
def Pieces.len (p : Pieces) : Nat :=
  addUsize (addUsize (addUsize (addUsize (addUsize (if p.sign.isSome then 1 else 0) p.lede.length)
    p.lead) p.body.length) p.trail) p.suffix.length

/-- `Pieces::emit`. -/
def Pieces.emit (p : Pieces) (k : Sink) (spec : Spec) (zeroPad : Bool) : Sink :=
  let pad := spec.width - p.len
  let k := if !spec.left && !zeroPad then k.fill spaceByte pad else k
  let k := p.sign.elim k k.push
  let k := k.extend p.lede
  let k := if !spec.left && zeroPad then k.fill zeroDigit pad else k
  let k := k.fill zeroDigit p.lead
  let k := k.extend p.body
  let k := k.fill zeroDigit p.trail
  let k := k.extend p.suffix
  if spec.left then k.fill spaceByte pad else k

/-- The digits of a number in the radix of its conversion. -/
def intDigits (magnitude radix : Nat) (upper : Bool) : List Byte :=
  if radix = 8 then numberText 8 magnitude
  else if radix = 16 then
    if upper then (numberText 16 magnitude).map asciiUpper else numberText 16 magnitude
  else numberText 10 magnitude

/-- The digits that `fmt_int` prints: none for a zero with the precision zero. -/
def intBody (magnitude radix : Nat) (upper : Bool) (spec : Spec) : List Byte :=
  if magnitude = 0 ∧ spec.prec = some 0 then [] else intDigits magnitude radix upper

/-- The sign that `fmt_int` prints. -/
def intSign (negative signed : Bool) (spec : Spec) : Option Byte :=
  if negative then some minusSign
  else if signed && spec.plus then some plusSign
  else if signed && spec.space then some spaceByte
  else none

/-- The zeros that the precision puts before the digits. -/
def intLead (body : List Byte) (spec : Spec) : Nat := spec.prec.elim 0 fun p => p - body.length

/-- The pieces of an integer. -/
def intPieces (negative : Bool) (magnitude radix : Nat) (upper signed : Bool) (spec : Spec) :
    Pieces :=
  let body := intBody magnitude radix upper spec
  let lead := intLead body spec
  { sign := intSign negative signed spec
    lede :=
      if spec.alt ∧ radix = 16 ∧ magnitude ≠ 0 then if upper then [48, 88] else [48, 120] else []
    lead := lead
    -- The alternate form of an octal number starts with a zero.
    body :=
      if spec.alt ∧ radix = 8 ∧ lead = 0 ∧ body.head? ≠ some zeroDigit then zeroDigit :: body
      else body
    trail := 0
    suffix := [] }

/-- `fmt_int`. -/
def fmtInt (k : Sink) (negative : Bool) (magnitude radix : Nat) (upper signed : Bool)
    (spec : Spec) : Sink :=
  (intPieces negative magnitude radix upper signed spec).emit k spec
    (spec.zero && !spec.left && spec.prec.isNone)

/-- A string with `pad` spaces on the side that is not justified. -/
def emitPadded (k : Sink) (s : List Byte) (pad : Nat) (spec : Spec) : Sink :=
  let k := if !spec.left then k.fill spaceByte pad else k
  let k := k.extend s
  if spec.left then k.fill spaceByte pad else k

/-- `fmt_str`. -/
def fmtStr (k : Sink) (s : List Byte) (spec : Spec) : Sink :=
  let s := spec.prec.elim s fun p => s.take (min p s.length)
  emitPadded k s (spec.width - s.length) spec

/-- `fmt_str_chars`: in the UTF-8 scheme width and precision count characters. -/
def fmtStrChars (k : Sink) (s : List Byte) (spec : Spec) (scheme : CharScheme) : Sink :=
  if scheme ≠ .utf8 then fmtStr k s spec
  else
    let most := spec.prec.getD k.room
    let shown := s.take (byteOffset s most scheme)
    emitPadded k shown (spec.width - charCount shown scheme) spec

/-! ## The text of a conversion -/

/-- The text of a formatted number. -/
def Pieces.text (p : Pieces) (spec : Spec) (zeroPad : Bool) : List Byte :=
  let pad := spec.width - p.len
  (if !spec.left && !zeroPad then List.replicate pad spaceByte else []) ++
    (p.sign.toList ++ (p.lede ++
      ((if !spec.left && zeroPad then List.replicate pad zeroDigit else []) ++
        (List.replicate p.lead zeroDigit ++ (p.body ++
          (List.replicate p.trail zeroDigit ++ (p.suffix ++
            if spec.left then List.replicate pad spaceByte else [])))))))

/-- The text of a padded string. -/
def paddedText (s : List Byte) (pad : Nat) (spec : Spec) : List Byte :=
  (if !spec.left then List.replicate pad spaceByte else []) ++ (s ++
    if spec.left then List.replicate pad spaceByte else [])

section Text

variable {k : Sink} {s : List Byte} {spec : Spec} {scheme : CharScheme} {pad : Nat}

/-- The pieces are one text, whatever the room. -/
lemma emit_eq {p : Pieces} {zeroPad : Bool} :
    p.emit k spec zeroPad = k.write (p.text spec zeroPad) := by
  have sign (k : Sink) : p.sign.elim k k.push = k.write p.sign.toList := by
    cases p.sign with
    | none => exact Sink.write_nil.symm
    | some b => exact Sink.push_eq
  unfold Pieces.emit Pieces.text
  simp only [↓Sink.ite_fill, Sink.fill_eq, Sink.extend_eq, sign, Sink.write_write,
    List.append_assoc]

/-- Padded pieces are a write of their text. -/
lemma emitPadded_eq : emitPadded k s pad spec = k.write (paddedText s pad spec) := by
  unfold emitPadded paddedText
  simp only [↓Sink.ite_fill, Sink.extend_eq, Sink.write_write, List.append_assoc]

/-- `fmt_int` writes the beginning of what it writes without a cap. -/
lemma fmtInt_truncates {negative upper signed : Bool} {magnitude radix : Nat} :
    (fmtInt k negative magnitude radix upper signed spec).buf =
      (fmtInt k.unlimited negative magnitude radix upper signed spec).buf.take k.cap := by
  unfold fmtInt
  rw [emit_eq, emit_eq]
  exact Sink.write_truncates

/-- `fmt_str` writes the beginning of what it writes without a cap. -/
lemma fmtStr_truncates :
    (fmtStr k s spec).buf = (fmtStr k.unlimited s spec).buf.take k.cap := by
  unfold fmtStr
  dsimp only
  rw [emitPadded_eq, emitPadded_eq]
  exact Sink.write_truncates

end Text

/-! ## Strings in characters -/

section Chars

variable {k : Sink} {s : List Byte} {spec : Spec} {scheme : CharScheme} {b : Byte}
  {d r n most : Nat}

/-- The text of a string in the UTF-8 scheme that takes at most `most` characters. -/
def charsText (most : Nat) (s : List Byte) (spec : Spec) : List Byte :=
  paddedText (s.take (byteOffset s most .utf8))
    (spec.width - charCount (s.take (byteOffset s most .utf8)) .utf8) spec

/-- In UTF-8 `fmt_str_chars` writes the text of the characters that the precision, or the room,
allows. -/
lemma fmtStrChars_utf8 :
    fmtStrChars k s spec .utf8 = k.write (charsText (spec.prec.getD k.room) s spec) := by
  unfold fmtStrChars
  rw [if_neg (fun other => other rfl)]
  exact emitPadded_eq

/-- There are no more characters than bytes. -/
lemma charCount_le_length : charCount s scheme ≤ s.length := by
  rw [charCount_eq, ← @sum_lens s scheme]
  exact List.length_le_sum_of_one_le _ lens_pos

/-- Every character takes a byte at least. -/
lemma le_byteOffset (h : most ≤ charCount s scheme) : most ≤ byteOffset s most scheme := by
  rw [charCount_eq] at h
  rw [byteOffset_eq, startOf]
  calc most
    _ = ((lens s scheme).take most).length := (List.length_take_of_le h).symm
    _ ≤ ((lens s scheme).take most).sum :=
      List.length_le_sum_of_one_le _ fun n mem => lens_pos n (List.mem_of_mem_take mem)

/-- Past the last character stands the end of the string. -/
lemma byteOffset_of_le (h : charCount s scheme ≤ most) : byteOffset s most scheme = s.length := by
  rw [charCount_eq] at h
  rw [byteOffset_eq, startOf_of_le h, sum_lens]

/-- A string cut at a character has the characters before it. -/
lemma charCount_take (h : most ≤ charCount s scheme) :
    charCount (s.take (byteOffset s most scheme)) scheme = most := by
  rw [charCount_eq] at h ⊢
  rw [byteOffset_eq, lens_take, List.length_take_of_le h]

/-- Enough characters take the whole string. -/
lemma charsText_of_le (h : charCount s .utf8 ≤ most) :
    charsText most s spec = paddedText s (spec.width - charCount s .utf8) spec := by
  unfold charsText
  rw [byteOffset_of_le h, List.take_length]

/-- A text that starts like the same text behind copies of `b` consists of copies of `b`. -/
lemma take_replicate_append (some : 0 < d) (h : r ≤ s.length) :
    (List.replicate d b ++ s).take r = s.take r ↔ ∀ c ∈ s.take r, c = b := by
  constructor
  · intro same
    have each : ∀ i < r, s[i]? = Option.some b := by
      intro i
      induction i using Nat.strong_induction_on with
      | h i ih =>
        intro inside
        have here : ((List.replicate d b ++ s).take r)[i]? = (s.take r)[i]? := by rw [same]
        rw [List.getElem?_take_of_lt inside, List.getElem?_take_of_lt inside] at here
        rw [← here]
        by_cases copy : i < d
        · rw [List.getElem?_append_left (by rwa [List.length_replicate]),
            List.getElem?_replicate_of_lt copy]
        · rw [List.getElem?_append_right (by rw [List.length_replicate]; omega),
            List.length_replicate]
          exact ih (i - d) (by omega) (by omega)
    intro c mem
    obtain ⟨i, here⟩ := List.mem_iff_getElem?.mp mem
    have inside : i < r := by
      by_contra outside
      rw [List.getElem?_eq_none ((List.length_take_le r s).trans (Nat.not_lt.mp outside))] at here
      cases here
    rw [List.getElem?_take_of_lt inside, each i inside] at here
    exact (Option.some.inj here).symm
  · intro copies
    have whole : s.take r = List.replicate r b :=
      List.eq_replicate_iff.mpr ⟨List.length_take_of_le h, copies⟩
    have less : s.take (r - d) = List.replicate (r - d) b := by
      rw [← Nat.min_eq_left (Nat.sub_le r d), ← List.take_take, whole, List.take_replicate]
    rw [List.take_append, List.length_replicate, List.take_replicate, less, whole,
      List.replicate_append_replicate]
    congr 1
    omega

/-- `fmt_str_chars` in a capped buffer pads as it would without the cap: in bytes or with a
precision it always does. Else the string must fit, or there is no padding on its left, or the
padding that is missing without the cap cannot be told from the string. -/
def PadsAlike (k : Sink) (s : List Byte) (spec : Spec) (scheme : CharScheme) : Prop :=
  scheme ≠ .utf8 ∨ spec.prec.isSome ∨ spec.left ∨ charCount s scheme ≤ k.room ∨
    spec.width ≤ k.room ∨ ∀ c ∈ s.take (k.room - (spec.width - charCount s scheme)), c = spaceByte

/-- Texts that agree in the room that is left. -/
lemma write_truncates_iff {t u : List Byte} :
    (k.write t).buf = (k.unlimited.write u).buf.take k.cap ↔ t.take k.room = u.take k.room := by
  rw [← Sink.write_truncates, Sink.write_buf, Sink.write_buf, List.append_cancel_left_eq]

/-- A string that does not fit, in characters, fills the room when nothing stands before it. -/
lemma take_charsText_left (left : spec.left) (long : k.room < charCount s .utf8) :
    (charsText k.room s spec).take k.room = s.take k.room := by
  have reach := le_byteOffset long.le
  have bytes := @charCount_le_length s .utf8
  unfold charsText paddedText
  rw [left]
  simp only [Bool.not_true, Bool.false_eq_true, if_false, List.nil_append]
  rw [List.take_append_of_le_length, List.take_take, Nat.min_eq_left reach]
  rw [List.length_take]
  omega

/-- The same with the string on the right, behind the padding. -/
lemma take_charsText_right (right : ¬spec.left) (long : k.room < charCount s .utf8) :
    (charsText k.room s spec).take k.room =
      (List.replicate (spec.width - k.room) spaceByte ++ s).take k.room := by
  have reach := le_byteOffset long.le
  unfold charsText paddedText
  rw [charCount_take long.le]
  simp only [right, Bool.not_false, if_true, Bool.false_eq_true, if_false, List.append_nil]
  rw [List.take_append, List.take_append, List.take_take, Nat.min_eq_left]
  exact (Nat.sub_le _ _).trans reach

/-- The padding for the room that is left and the padding for the whole string. -/
lemma padding_alike (long : k.room < charCount s .utf8) :
    (List.replicate (spec.width - k.room) spaceByte ++ s).take k.room =
        (List.replicate (spec.width - charCount s .utf8) spaceByte ++ s).take k.room ↔
      spec.width ≤ k.room ∨
        ∀ c ∈ s.take (k.room - (spec.width - charCount s .utf8)), c = spaceByte := by
  have bytes := @charCount_le_length s .utf8
  by_cases narrow : spec.width ≤ k.room
  · rw [Nat.sub_eq_zero_of_le narrow, Nat.sub_eq_zero_of_le (narrow.trans long.le)]
    exact ⟨fun _ => Or.inl narrow, fun _ => rfl⟩
  · -- Both start with the padding of the whole string.
    set pad := spec.width - charCount s .utf8 with padDef
    obtain ⟨d, more⟩ := Nat.exists_eq_add_of_lt (show pad < spec.width - k.room by omega)
    have cut (t : List Byte) : (List.replicate pad spaceByte ++ t).take k.room =
        (List.replicate pad spaceByte).take k.room ++ t.take (k.room - pad) := by
      rw [List.take_append, List.length_replicate]
    rw [more, Nat.add_assoc, List.replicate_add, List.append_assoc, cut, cut,
      List.append_cancel_left_eq,
      take_replicate_append (Nat.succ_pos d) ((Nat.sub_le _ _).trans (long.le.trans bytes)),
      or_iff_right narrow]

/-- Without a precision the law holds exactly when the padding is the same. -/
lemma charsText_truncates (whole : k.buf.length + s.length ≤ usizeMax) :
    (charsText k.room s spec).take k.room = (charsText k.unlimited.room s spec).take k.room ↔
      spec.left ∨ charCount s .utf8 ≤ k.room ∨ spec.width ≤ k.room ∨
        ∀ c ∈ s.take (k.room - (spec.width - charCount s .utf8)), c = spaceByte := by
  have bytes := @charCount_le_length s .utf8
  have all : charCount s .utf8 ≤ k.unlimited.room := bytes.trans (Nat.le_sub_of_add_le' whole)
  rw [charsText_of_le all]
  by_cases fits : charCount s .utf8 ≤ k.room
  · rw [charsText_of_le fits]
    exact ⟨fun _ => Or.inr (Or.inl fits), fun _ => rfl⟩
  have long : k.room < charCount s .utf8 := Nat.not_le.mp fits
  rw [or_iff_right fits]
  by_cases left : spec.left
  · rw [take_charsText_left left long]
    refine ⟨fun _ => Or.inl left, fun _ => ?_⟩
    unfold paddedText
    rw [left]
    simp only [Bool.not_true, Bool.false_eq_true, if_false, List.nil_append]
    rw [List.take_append_of_le_length (long.le.trans bytes)]
  · rw [take_charsText_right left long, or_iff_right left, ← padding_alike long]
    unfold paddedText
    simp only [left, Bool.not_false, if_true, Bool.false_eq_true, if_false, List.append_nil]

end Chars

/-! ## A cap truncates -/

/-- A capped buffer holds the start of what a buffer without a limit holds, for every integer and
every string in bytes. For a string in characters it does so exactly when the padding is the same
(`PadsAlike`). -/
theorem capped_sink_truncates (k : Sink) (spec : Spec) :
    (∀ (negative : Bool) (magnitude radix : Nat) (upper signed : Bool),
      (fmtInt k negative magnitude radix upper signed spec).buf =
        (fmtInt k.unlimited negative magnitude radix upper signed spec).buf.take k.cap) ∧
    (∀ s : List Byte, (fmtStr k s spec).buf = (fmtStr k.unlimited s spec).buf.take k.cap) ∧
    ∀ (s : List Byte) (scheme : CharScheme), k.buf.length + s.length ≤ usizeMax →
      ((fmtStrChars k s spec scheme).buf = (fmtStrChars k.unlimited s spec scheme).buf.take k.cap ↔
        PadsAlike k s spec scheme) := by
  refine ⟨fun _ _ _ _ _ => fmtInt_truncates, fun _ => fmtStr_truncates, ?_⟩
  intro s scheme whole
  unfold PadsAlike
  by_cases utf8 : scheme = .utf8
  · subst utf8
    rw [fmtStrChars_utf8, fmtStrChars_utf8, write_truncates_iff,
      or_iff_right (fun other => other rfl)]
    cases spec.prec with
    | none =>
      rw [or_iff_right (by simp)]
      exact charsText_truncates whole
    | some most => exact ⟨fun _ => Or.inl rfl, fun _ => rfl⟩
  · unfold fmtStrChars
    rw [if_pos utf8, if_pos utf8]
    exact ⟨fun _ => Or.inl utf8, fun _ => fmtStr_truncates⟩

/-- Room for three bytes: `%5s` of six characters pads for three of them. -/
theorem capped_sink_pads_for_room :
    ¬∀ (k : Sink) (spec : Spec) (s : List Byte) (scheme : CharScheme),
      k.buf.length + s.length ≤ usizeMax →
        (fmtStrChars k s spec scheme).buf =
          (fmtStrChars k.unlimited s spec scheme).buf.take k.cap := by
  intro law
  have cut := law (Sink.new 3 (by decide)) ⟨false, false, false, false, false, 5, none⟩
    [97, 98, 99, 100, 101, 102] .utf8 (by decide)
  have capped : (fmtStrChars (Sink.new 3 (by decide)) [97, 98, 99, 100, 101, 102]
      ⟨false, false, false, false, false, 5, none⟩ .utf8).buf = [32, 32, 97] := by
    decide +kernel
  have free : (fmtStrChars (Sink.new 3 (by decide)).unlimited [97, 98, 99, 100, 101, 102]
      ⟨false, false, false, false, false, 5, none⟩ .utf8).buf = [97, 98, 99, 100, 101, 102] := by
    decide +kernel
  rw [capped, free] at cut
  exact absurd cut (by decide)

/-- The same string with an explicit precision. -/
theorem capped_sink_truncates_precision :
    (fmtStrChars (Sink.new 3 (by decide)) [97, 98, 99, 100, 101, 102]
        ⟨false, false, false, false, false, 5, some 6⟩ .utf8).buf =
      (fmtStrChars (Sink.new 3 (by decide)).unlimited [97, 98, 99, 100, 101, 102]
        ⟨false, false, false, false, false, 5, some 6⟩ .utf8).buf.take 3 :=
  ((capped_sink_truncates (Sink.new 3 (by decide))
    ⟨false, false, false, false, false, 5, some 6⟩).2.2 [97, 98, 99, 100, 101, 102] .utf8
    (by decide)).mpr (Or.inr (Or.inl rfl))

end Qcvm.Stdlib

import Qcvm.Stdlib.FloatText
import Qcvm.Stdlib.Quote
import Qcvm.Stdlib.Substring

/-!
# sprintf

`sprintf_impl` of `stdlib/format.rs`: the directives of a format string and the arguments that they
take. What a directive reads of the format is what is left of it, so that a position in the format is a
suffix of it; the warning about a bad directive carries the suffix that starts with it.
-/

namespace Qcvm.Stdlib

open Lib

/-! ## Arguments -/

/-- `Args`: the number of arguments, their words and the strings they refer to. -/
structure FormatArgs where
  argc : Nat
  raw : Nat → Word × Word × Word
  str : Nat → List Byte

namespace FormatArgs

/-- `index`: the arguments behind the format that were passed. -/
def index (args : FormatArgs) (a : Int) : Option Nat :=
  if 1 ≤ a ∧ a < min args.argc 8 then some a.toNat else none

/-- `raw`. -/
def rawAt (args : FormatArgs) (a : Int) : Word × Word × Word := (args.index a).elim (0, 0, 0) args.raw

/-- `f32` and `u32`: the first word. -/
def wordAt (args : FormatArgs) (a : Int) : Word := (args.rawAt a).1

/-- `f64` and `u64`: the first two words. -/
def dwordAt (args : FormatArgs) (a : Int) : DWord := join64 (args.rawAt a).1 (args.rawAt a).2.1

/-- `str`. -/
def strAt (args : FormatArgs) (a : Int) : List Byte := (args.index a).elim [] args.str

end FormatArgs

/-! ## Directives -/

/-- `u8::is_ascii_digit`. -/
def isDigit (c : Byte) : Bool := 48 ≤ c && c ≤ 57

/-- `is_digit`: whether a digit comes next. -/
def digitNext (t : List Byte) : Bool := t.head?.any isDigit

/-- The loop of `parse_int`: the value and what follows the digits. -/
def parseDigits (v : Int) : List Byte → Int × List Byte
  | [] => (v, [])
  | c :: s =>
    if isDigit c then parseDigits (addI64 (mulI64 v 10) (c - 48).toNat) s else (v, c :: s)

/-- `parse_int`: the digits as an `int`. -/
def parseInt (t : List Byte) : Word × List Byte :=
  let (v, t) := parseDigits 0 t
  (BitVec.ofInt 32 v, t)

/-- A spec without flags, width and precision. -/
def plainSpec : Spec := ⟨false, false, false, false, false, 0, none⟩

/-- What a directive says, as it is read. -/
structure Directive where
  spec : Spec
  width : Word
  prec : Word
  thisarg : Int
  isfloat : Option Bool
  is64 : Bool
  deriving DecidableEq, Repr

namespace Directive

/-- A directive before anything is read. -/
def new : Directive := ⟨plainSpec, -1, -1, -1, none, false⟩

/-- A width that is given: a negative one is left-justified. -/
def setWidth (d : Directive) (width : Word) : Directive :=
  if width.slt 0 then { d with spec := { d.spec with left := true }, width := -width }
  else { d with width := width }

end Directive

/-- `%`. -/
def percentByte : Byte := 37

/-- `$`. -/
def dollarByte : Byte := 36

/-- `*`. -/
def starByte : Byte := 42

/-- A number right after the `%`: the position of the argument, or the width. -/
def readPosition (d : Directive) (t : List Byte) : Directive × List Byte :=
  if digitNext t then
    let (n, t') := parseInt t
    if t'.head? = some dollarByte then ({ d with thisarg := n.toInt }, t'.tail)
    else if t.head? = some zeroDigit then
      ({ d with spec := { d.spec with zero := true }, width := if n = 0 then -1 else n }, t')
    else ({ d with width := n }, t')
  else (d, t)

/-- The flags. -/
def readFlags (spec : Spec) : List Byte → Spec × List Byte
  | [] => (spec, [])
  | f :: t =>
    if f = 35 then readFlags { spec with alt := true } t
    else if f = 48 then readFlags { spec with zero := true } t
    else if f = 45 then readFlags { spec with left := true } t
    else if f = 32 then readFlags { spec with space := true } t
    else if f = 43 then readFlags { spec with plus := true } t
    else (spec, f :: t)

/-- The argument of a `*`: the one at a position, or the next one. -/
def readStar (argpos : Nat) (t : List Byte) : Option (Int × Nat × List Byte) :=
  if digitNext t then
    let (n, t) := parseInt t
    if t.head? = some dollarByte then some (n.toInt, argpos, t.tail) else none
  else some (argpos, argpos + 1, t)

section Reading

variable (F : FloatOps) (cs : Charset) (args : FormatArgs)

/-- Flags and width, unless the width came first. -/
def readWidth (d : Directive) (argpos : Nat) (t : List Byte) : Option (Directive × Nat × List Byte) :=
  if d.width.slt 0 then
    let (spec, t) := readFlags d.spec t
    let d := { d with spec := spec }
    if t.head? = some starByte then
      (readStar argpos t.tail).map fun (a, argpos, t) =>
        (d.setWidth (F.f2i (args.wordAt a)), argpos, t)
    else if digitNext t then
      let (n, t) := parseInt t
      some (d.setWidth n, argpos, t)
    else some (d, argpos, t)
  else some (d, argpos, t)

/-- The precision. -/
def readPrecision (d : Directive) (argpos : Nat) (t : List Byte) :
    Option (Directive × Nat × List Byte) :=
  if t.head? = some pointByte then
    let t := t.tail
    if t.head? = some starByte then
      (readStar argpos t.tail).map fun (a, argpos, t) =>
        ({ d with prec := F.f2i (args.wordAt a) }, argpos, t)
    else if digitNext t then
      let (n, t) := parseInt t
      some ({ d with prec := n }, argpos, t)
    else none
  else some (d, argpos, t)

/-- The length modifiers. -/
def readModifiers (d : Directive) : List Byte → Directive × List Byte
  | [] => (d, [])
  | m :: t =>
    if m = 104 then readModifiers { d with isfloat := some true } t
    else if m = 108 ∨ m = 76 then readModifiers { d with isfloat := some false } t
    else if m = 113 then readModifiers { d with is64 := true } t
    else if m = 106 ∨ m = 122 ∨ m = 116 then readModifiers d t
    else (d, m :: t)

/-- A directive up to its conversion: none for a bad one. -/
def readDirective (argpos : Nat) (t : List Byte) : Option (Directive × Nat × List Byte) :=
  let (d, t) := readPosition .new t
  (readWidth F args d argpos t).bind fun (d, argpos, t) =>
    (readPrecision F args d argpos t).map fun (d, argpos, t) =>
      let (d, t) := readModifiers d t
      (d, argpos, t)

/-- What the conversion adds to a directive. -/
def Directive.complete (d : Directive) (conv : Byte) : Directive :=
  if conv = 112 ∨ conv = 80 then
    { d with
      spec := { d.spec with zero := true }
      width := if d.width.slt 0 then 8 else d.width
      isfloat := d.isfloat.or (some false) }
  else if conv = 105 then { d with isfloat := d.isfloat.or (some false) }
  else d

/-- The spec that a directive is formatted with. -/
def Directive.finalSpec (d : Directive) : Spec :=
  { d.spec with width := usizeOf d.width, prec := if d.prec.slt 0 then none else some d.prec.toNat }

/-! ## Conversions -/

/-- The value of `%d` and `%i`. -/
def signedArg (is64 isfloat : Bool) (a : Int) : Int :=
  match is64, isfloat with
  | true, true => (F.d2i64 (args.dwordAt a)).toInt
  | true, false => (args.dwordAt a).toInt
  | false, true => (F.d2i64 (F.widen (args.wordAt a))).toInt
  | false, false => (args.wordAt a).toInt

/-- The value of `%o`, `%u`, `%x` and `%p`. -/
def unsignedArg (is64 isfloat : Bool) (a : Int) : Nat :=
  match is64, isfloat with
  | true, true => (F.d2u64 (args.dwordAt a)).toNat
  | true, false => (args.dwordAt a).toNat
  | false, true => (F.d2u64 (F.widen (args.wordAt a))).toNat
  | false, false => (args.wordAt a).toNat

/-- The value of `%e`, `%f` and `%g`. -/
def floatArg (is64 isfloat : Bool) (a : Int) : DWord :=
  match is64, isfloat with
  | true, true => args.dwordAt a
  | true, false => F.ofI64D (args.dwordAt a)
  | false, true => F.widen (args.wordAt a)
  | false, false => F.ofI64D ((args.wordAt a).signExtend 64)

/-- `%v`: the three components, with spaces between them. -/
def fmtVector (k : Sink) (isfloat : Bool) (a : Int) (conv : Byte) (spec : Spec) : Sink :=
  let component (w : Word) : DWord := if isfloat then F.widen w else F.ofI64D (w.signExtend 64)
  let (x, y, z) := args.rawAt a
  let k := fmtFloat k (component x) conv spec
  let k := fmtFloat (k.push spaceByte) (component y) conv spec
  fmtFloat (k.push spaceByte) (component z) conv spec

/-- `%c`. -/
def fmtChar (k : Sink) (isfloat : Bool) (a : Int) (spec : Spec) : Sink :=
  let code := if isfloat then F.f2u (args.wordAt a) else args.wordAt a
  let byteMode := spec.alt || !cs.utf8
  let spec := { spec with alt := false }
  if byteMode then
    -- The low byte; a NUL cuts off the padding behind it.
    let b : Byte := code.setWidth 8
    let pad := spec.width - 1
    if b ≠ 0 then fmtStr k [b] { spec with prec := none }
    else if !spec.left then k.fill spaceByte pad
    else k
  else fmtStrChars k ((encode code.toNat cs.scheme false).takeWhile (· != 0)) spec cs.scheme

/-- `%s` and `%S`. -/
def fmtText (k : Sink) (a : Int) (quoted : Bool) (spec : Spec) : Sink :=
  let s := if quoted then quoteString (args.strAt a) 65536 else args.strAt a
  if spec.alt || !cs.utf8 then fmtStr k s spec else fmtStrChars k s spec cs.scheme

/-- The output of a conversion: none for an unknown one. -/
def convert (k : Sink) (conv : Byte) (spec : Spec) (is64 isfloat : Bool) (a : Int) : Option Sink :=
  if conv = 100 ∨ conv = 105 then
    let v := signedArg F args is64 isfloat a
    some (fmtInt k (v < 0) v.natAbs 10 false true spec)
  else if conv = 111 ∨ conv = 117 ∨ conv = 120 ∨ conv = 88 ∨ conv = 112 ∨ conv = 80 then
    let radix := if conv = 111 then 8 else if conv = 117 then 10 else 16
    let upper := conv = 88 || conv = 80
    some (fmtInt k false (unsignedArg F args is64 isfloat a) radix upper false spec)
  else if conv = 101 ∨ conv = 69 ∨ conv = 102 ∨ conv = 70 ∨ conv = 103 ∨ conv = 71 then
    some (fmtFloat k (floatArg F args is64 isfloat a) conv spec)
  else if conv = 118 ∨ conv = 86 then
    some (fmtVector F args k isfloat a (if conv = 86 then 71 else 103) spec)
  else if conv = 99 then some (fmtChar F cs args k isfloat a spec)
  else if conv = 115 ∨ conv = 83 then some (fmtText cs args k a (conv = 83) spec)
  else none

/-- What is done with a directive that has been read: none if its conversion is unknown. A full buffer
takes no output, and its conversion is not looked at. -/
def Directive.emit (d : Directive) (k : Sink) (argpos : Nat) (conv : Byte) : Option (Sink × Nat) :=
  let d := d.complete conv
  let isfloat := d.isfloat.getD true
  let (a, argpos) : Int × Nat := if d.thisarg < 0 then (argpos, argpos + 1) else (d.thisarg, argpos)
  if 0 < k.room then
    (convert F cs args k conv d.finalSpec d.is64 isfloat a).map fun k => (k, argpos)
  else some (k, argpos)

/-! ## What is left of the format -/

variable {F cs args} {d d' : Directive} {v : Int} {t t' : List Byte} {k k' : Sink}
  {argpos argpos' : Nat} {conv : Byte}

/-- Reading digits lengthens no text. -/
lemma length_parseDigits (v : Int) (t : List Byte) : (parseDigits v t).2.length ≤ t.length := by
  induction t generalizing v with
  | nil => exact Nat.le_refl _
  | cons c s ih =>
    unfold parseDigits
    split
    next => exact (ih _).trans (Nat.le_succ _)
    next => exact Nat.le_refl _

/-- Reading a number lengthens no text. -/
lemma length_parseInt (t : List Byte) : (parseInt t).2.length ≤ t.length := length_parseDigits 0 t

/-- Reading a position lengthens no text. -/
lemma length_readPosition (d : Directive) (t : List Byte) :
    (readPosition d t).2.length ≤ t.length := by
  have number := length_parseInt t
  unfold readPosition
  split
  next =>
    dsimp only
    split
    next => exact (List.length_tail ▸ Nat.sub_le _ _ : (parseInt t).2.tail.length ≤ _).trans number
    next =>
      split
      next => exact number
      next => exact number
  next => exact Nat.le_refl _

/-- Reading flags lengthens no text. -/
lemma length_readFlags (spec : Spec) (t : List Byte) : (readFlags spec t).2.length ≤ t.length := by
  induction t generalizing spec with
  | nil => exact Nat.le_refl _
  | cons f t ih =>
    unfold readFlags
    split_ifs
    all_goals first | exact (ih _).trans (Nat.le_succ _) | exact Nat.le_refl _

/-- Reading modifiers lengthens no text. -/
lemma length_readModifiers (d : Directive) (t : List Byte) :
    (readModifiers d t).2.length ≤ t.length := by
  induction t generalizing d with
  | nil => exact Nat.le_refl _
  | cons f t ih =>
    unfold readModifiers
    split_ifs
    all_goals first | exact (ih _).trans (Nat.le_succ _) | exact Nat.le_refl _

lemma length_tail_le (t : List Byte) : t.tail.length ≤ t.length := by
  rw [List.length_tail]
  exact Nat.sub_le _ _

/-- Reading a star lengthens no text. -/
lemma length_readStar {a : Int} (e : readStar argpos t = some (a, argpos', t')) :
    t'.length ≤ t.length := by
  unfold readStar at e
  split at e
  next =>
    dsimp only at e
    split at e
    next =>
      cases e
      exact (length_tail_le _).trans (length_parseInt t)
    next => cases e
  next =>
    cases e
    exact Nat.le_refl _

/-- Reading a width lengthens no text. -/
lemma length_readWidth (e : readWidth F args d argpos t = some (d', argpos', t')) :
    t'.length ≤ t.length := by
  unfold readWidth at e
  split at e
  next =>
    have flags := length_readFlags d.spec t
    dsimp only at e
    split at e
    next =>
      obtain ⟨⟨a, argpos, u⟩, star, same⟩ := Option.map_eq_some_iff.mp e
      cases same
      exact ((length_readStar star).trans (length_tail_le _)).trans flags
    next =>
      split at e
      next =>
        cases e
        exact (length_parseInt _).trans flags
      next =>
        cases e
        exact flags
  next =>
    cases e
    exact Nat.le_refl _

/-- Reading a precision lengthens no text. -/
lemma length_readPrecision (e : readPrecision F args d argpos t = some (d', argpos', t')) :
    t'.length ≤ t.length := by
  unfold readPrecision at e
  split at e
  next =>
    dsimp only at e
    split at e
    next =>
      obtain ⟨⟨a, argpos, u⟩, star, same⟩ := Option.map_eq_some_iff.mp e
      cases same
      exact ((length_readStar star).trans (length_tail_le _)).trans (length_tail_le _)
    next =>
      split at e
      next =>
        cases e
        exact (length_parseInt _).trans (length_tail_le _)
      next => cases e
  next =>
    cases e
    exact Nat.le_refl _

/-- Reading a directive lengthens no text. -/
lemma length_readDirective (e : readDirective F args argpos t = some (d, argpos', t')) :
    t'.length ≤ t.length := by
  unfold readDirective at e
  obtain ⟨⟨d₁, argpos₁, t₁⟩, width, e⟩ := Option.bind_eq_some_iff.mp e
  obtain ⟨⟨d₂, argpos₂, t₂⟩, precision, same⟩ := Option.map_eq_some_iff.mp e
  cases same
  calc (readModifiers d₂ t₂).2.length
    _ ≤ t₂.length := length_readModifiers d₂ t₂
    _ ≤ t₁.length := length_readPrecision precision
    _ ≤ (readPosition .new t).2.length := length_readWidth width
    _ ≤ t.length := length_readPosition _ t

/-! ## The loop -/

variable (F cs args) in
/-- The loop of `sprintf_impl`: the output and the text that the warning shows, from the bad directive
on. -/
def sprintfLoop (k : Sink) (argpos : Nat) : List Byte → Sink × Option (List Byte)
  | [] => (k, none)
  | c :: s =>
    if c ≠ percentByte then sprintfLoop (k.push c) argpos s
    else if s.head? = some percentByte then sprintfLoop (k.push percentByte) argpos s.tail
    else
      match _read : readDirective F args argpos s with
      | none => (k, some (c :: s))
      | some (d, argpos', rest) =>
        match d.emit F cs args k argpos' (rest.head?.getD 0) with
        | none => (k, some (c :: s))
        | some (k, argpos) => sprintfLoop k argpos rest.tail
termination_by t => t.length
decreasing_by
  · exact Nat.lt_succ_self _
  · exact Nat.lt_succ_of_le (length_tail_le _)
  · exact Nat.lt_succ_of_le ((length_tail_le _).trans (length_readDirective _read))

section Steps

variable {c : Byte} {s rest : List Byte}

/-- A byte that is no `%` is put out. -/
lemma sprintfLoop_text (plain : c ≠ percentByte) :
    sprintfLoop F cs args k argpos (c :: s) = sprintfLoop F cs args (k.push c) argpos s := by
  rw [sprintfLoop, if_pos plain]

/-- Two `%` put out one. -/
lemma sprintfLoop_percent (escape : s.head? = some percentByte) :
    sprintfLoop F cs args k argpos (percentByte :: s)
      = sprintfLoop F cs args (k.push percentByte) argpos s.tail := by
  rw [sprintfLoop, if_neg (fun other => other rfl), if_pos escape]

/-- A directive that cannot be read ends the output, with a warning. -/
lemma sprintfLoop_bad (directive : s.head? ≠ some percentByte)
    (bad : readDirective F args argpos s = none) :
    sprintfLoop F cs args k argpos (percentByte :: s) = (k, some (percentByte :: s)) := by
  rw [sprintfLoop, if_neg (fun other => other rfl), if_neg directive]
  split
  next => rfl
  next read =>
    rw [bad] at read
    cases read

/-- An unknown conversion ends the output, with a warning. -/
lemma sprintfLoop_unknown (directive : s.head? ≠ some percentByte)
    (read : readDirective F args argpos s = some (d, argpos', rest))
    (unknown : d.emit F cs args k argpos' (rest.head?.getD 0) = none) :
    sprintfLoop F cs args k argpos (percentByte :: s) = (k, some (percentByte :: s)) := by
  rw [sprintfLoop, if_neg (fun other => other rfl), if_neg directive]
  split
  next => rfl
  next same =>
    rw [read] at same
    cases same
    rw [unknown]

/-- A directive is put out, and the loop goes on behind it. -/
lemma sprintfLoop_directive {argpos'' : Nat} (directive : s.head? ≠ some percentByte)
    (read : readDirective F args argpos s = some (d, argpos', rest))
    (emit : d.emit F cs args k argpos' (rest.head?.getD 0) = some (k', argpos'')) :
    sprintfLoop F cs args k argpos (percentByte :: s)
      = sprintfLoop F cs args k' argpos'' rest.tail := by
  rw [sprintfLoop, if_neg (fun other => other rfl), if_neg directive]
  split
  next none =>
    rw [read] at none
    cases none
  next same =>
    rw [read] at same
    cases same
    rw [emit]

end Steps

/-- `SPRINTF_MAX`. -/
def sprintfMax : Nat := 65535

variable (F cs args) in
/-- `sprintf_impl`. -/
def sprintfImpl : List Byte × Option (List Byte) :=
  let (k, bad) := sprintfLoop F cs args (.new sprintfMax (by decide)) 1 (args.str 0)
  (k.buf, bad)

/-! ## The cap -/

/-- The contents of a sink are the start of the contents of another one with a higher cap. -/
structure Sink.Starts (k k' : Sink) : Prop where
  le : k.cap ≤ k'.cap
  buf : k.buf = k'.buf.take k.cap

namespace Sink.Starts

/-- The same bytes written to both sinks. -/
lemma write (h : k.Starts k') (s : List Byte) : (k.write s).Starts (k'.write s) where
  le := h.le
  buf := by
    show (k.buf ++ s).take k.cap = ((k'.buf ++ s).take k'.cap).take k.cap
    rw [List.take_take, Nat.min_eq_left h.le, h.buf, List.take_append, List.take_append, List.take_take,
      Nat.min_self, List.length_take]
    congr 2
    omega

/-- With room in the one there is room in the other. -/
lemma room (h : k.Starts k') (room : 0 < k.room) : 0 < k'.room := by
  have same : k.buf.length = min k.cap k'.buf.length := by rw [← List.length_take, ← h.buf]
  have le := h.le
  unfold Sink.room at room ⊢
  omega

/-- What is written to the other one does not matter once the one is full. -/
lemma full (h : k.Starts k') (full : k.room = 0) (s : List Byte) : k.Starts (k'.write s) where
  le := h.le
  buf := by
    have same : k.buf.length = min k.cap k'.buf.length := by rw [← List.length_take, ← h.buf]
    have fits := k.fits
    unfold Sink.room at full
    show k.buf = ((k'.buf ++ s).take k'.cap).take k.cap
    rw [List.take_take, Nat.min_eq_left h.le, List.take_append_of_le_length (by omega)]
    exact h.buf

end Sink.Starts

/-- The text of a float conversion. -/
lemma fmtFloat_eq (d : DWord) (conv : Byte) (spec : Spec) :
    ∃ s, ∀ k : Sink, fmtFloat k d conv spec = k.write s := by
  unfold fmtFloat fmtFloatOf
  dsimp only
  cases f64Magnitude d with
  | none => exact ⟨_, fun _ => emit_eq⟩
  | some x => exact ⟨_, fun _ => emit_eq⟩

/-- `fmt_str` writes bytes that do not depend on the sink. -/
lemma fmtStr_eq (s : List Byte) (spec : Spec) : ∃ t, ∀ k : Sink, fmtStr k s spec = k.write t :=
  ⟨_, fun _ => emitPadded_eq⟩

/-- `%v` writes bytes that do not depend on the sink. -/
lemma fmtVector_eq (isfloat : Bool) (a : Int) (conv : Byte) (spec : Spec) :
    ∃ s, ∀ k : Sink, fmtVector F args k isfloat a conv spec = k.write s := by
  have component (w : Word) := fmtFloat_eq
    (if isfloat then F.widen w else F.ofI64D (w.signExtend 64)) conv spec
  obtain ⟨x, eqX⟩ := component (args.rawAt a).1
  obtain ⟨y, eqY⟩ := component (args.rawAt a).2.1
  obtain ⟨z, eqZ⟩ := component (args.rawAt a).2.2
  refine ⟨x ++ ([spaceByte] ++ (y ++ ([spaceByte] ++ z))), fun k => ?_⟩
  unfold fmtVector
  dsimp only
  rw [eqX, eqY, eqZ, Sink.push_eq, Sink.push_eq]
  simp only [Sink.write_write, List.append_assoc]

/-- `%c` writes bytes that do not depend on the sink, where bytes are counted. -/
lemma fmtChar_eq (bytes : cs.utf8 = false) (isfloat : Bool) (a : Int) (spec : Spec) :
    ∃ s, ∀ k : Sink, fmtChar F cs args k isfloat a spec = k.write s := by
  have byteMode : (spec.alt || !cs.utf8) = true := by rw [bytes, Bool.not_false, Bool.or_true]
  unfold fmtChar
  dsimp only
  simp only [byteMode, if_true]
  generalize (if isfloat then F.f2u (args.wordAt a) else args.wordAt a) = code
  split
  next => exact fmtStr_eq _ _
  next =>
    split
    next => exact ⟨_, fun _ => Sink.fill_eq⟩
    next => exact ⟨[], fun _ => Sink.write_nil.symm⟩

/-- `%s` and `%S` write bytes that do not depend on the sink, where bytes are counted. -/
lemma fmtText_eq (bytes : cs.utf8 = false) (a : Int) (quoted : Bool) (spec : Spec) :
    ∃ s, ∀ k : Sink, fmtText cs args k a quoted spec = k.write s := by
  have byteMode : (spec.alt || !cs.utf8) = true := by rw [bytes, Bool.not_false, Bool.or_true]
  unfold fmtText
  dsimp only
  simp only [byteMode, if_true]
  exact fmtStr_eq _ _

/-- In bytes a conversion writes one text, whatever the sink holds. -/
lemma convert_eq (bytes : cs.utf8 = false) (conv : Byte) (spec : Spec) (is64 isfloat : Bool) (a : Int) :
    ∃ s : Option (List Byte), ∀ k : Sink,
      convert F cs args k conv spec is64 isfloat a = s.map k.write := by
  have writes {f : Sink → Sink} (h : ∃ s, ∀ k : Sink, f k = k.write s) :
      ∃ s : Option (List Byte), ∀ k : Sink, some (f k) = s.map k.write := by
    obtain ⟨s, eq⟩ := h
    exact ⟨some s, fun k => congrArg some (eq k)⟩
  unfold convert
  split
  next => exact writes ⟨_, fun _ => emit_eq⟩
  next =>
    split
    next => exact writes ⟨_, fun _ => emit_eq⟩
    next =>
      split
      next => exact writes (fmtFloat_eq _ conv spec)
      next =>
        split
        next => exact writes (fmtVector_eq isfloat a _ spec)
        next =>
          split
          next => exact writes (fmtChar_eq bytes isfloat a spec)
          next =>
            split
            next => exact writes (fmtText_eq bytes a _ spec)
            next => exact ⟨none, fun _ => rfl⟩

/-- A full sink stays as it is, and what the directive takes of the arguments is the same. -/
lemma emit_full (full : k.room = 0) (d : Directive) (argpos : Nat) (conv : Byte) :
    d.emit F cs args k argpos conv = some (k, if (d.complete conv).thisarg < 0 then argpos + 1
      else argpos) := by
  unfold Directive.emit
  dsimp only
  rw [if_neg (by omega)]
  split
  next => rfl
  next => rfl

/-- With room the directive writes one text, or is unknown. -/
lemma emit_room (bytes : cs.utf8 = false) (d : Directive) (argpos : Nat) (conv : Byte) :
    ∃ s : Option (List Byte), ∀ k : Sink, 0 < k.room → d.emit F cs args k argpos conv = s.map fun s =>
      (k.write s, if (d.complete conv).thisarg < 0 then argpos + 1 else argpos) := by
  obtain ⟨s, eq⟩ := @convert_eq F cs args bytes conv (d.complete conv).finalSpec (d.complete conv).is64
    ((d.complete conv).isfloat.getD true)
    (if (d.complete conv).thisarg < 0 then (argpos : Int) else (d.complete conv).thisarg)
  refine ⟨s, fun k room => ?_⟩
  unfold Directive.emit
  dsimp only
  split at eq
  next next =>
    rw [if_pos next, if_pos next]
    dsimp only
    rw [if_pos room, eq, Option.map_map]
    rfl
  next at' =>
    rw [if_neg at', if_neg at']
    dsimp only
    rw [if_pos room, eq, Option.map_map]
    rfl

/-- A full sink takes nothing more. -/
lemma sprintfLoop_full (full : k.room = 0) (argpos : Nat) (t : List Byte) :
    (sprintfLoop F cs args k argpos t).1 = k := by
  have push {k : Sink} (full : k.room = 0) (b : Byte) : k.push b = k := by
    unfold Sink.push
    rw [dif_neg (by omega)]
  induction k, argpos, t using sprintfLoop.induct F cs args with
  | case1 => rw [sprintfLoop]
  | case2 k argpos c s plain ih =>
    rw [push full] at ih
    rw [sprintfLoop_text plain, push full]
    exact ih full
  | case3 k argpos c s percent escape ih =>
    obtain rfl := not_not.mp percent
    rw [push full] at ih
    rw [sprintfLoop_percent escape, push full]
    exact ih full
  | case4 k argpos c s percent directive bad =>
    obtain rfl := not_not.mp percent
    rw [sprintfLoop_bad directive bad]
  | case5 k argpos c s percent directive d argpos' rest read unknown =>
    obtain rfl := not_not.mp percent
    rw [sprintfLoop_unknown directive read unknown]
  | case6 k argpos c s percent directive d argpos' rest read k' argpos'' emit ih =>
    obtain rfl := not_not.mp percent
    rw [sprintfLoop_directive directive read emit]
    rw [emit_full full] at emit
    cases emit
    exact ih full

/-- The loop keeps the cap of its sink. -/
lemma sprintfLoop_cap (bytes : cs.utf8 = false) (k : Sink) (argpos : Nat) (t : List Byte) :
    (sprintfLoop F cs args k argpos t).1.cap = k.cap := by
  induction k, argpos, t using sprintfLoop.induct F cs args with
  | case1 => rw [sprintfLoop]
  | case2 k argpos c s plain ih =>
    rw [sprintfLoop_text plain, ih, Sink.push_eq, Sink.write_cap]
  | case3 k argpos c s percent escape ih =>
    obtain rfl := not_not.mp percent
    rw [sprintfLoop_percent escape, ih, Sink.push_eq, Sink.write_cap]
  | case4 k argpos c s percent directive bad =>
    obtain rfl := not_not.mp percent
    rw [sprintfLoop_bad directive bad]
  | case5 k argpos c s percent directive d argpos' rest read unknown =>
    obtain rfl := not_not.mp percent
    rw [sprintfLoop_unknown directive read unknown]
  | case6 k argpos c s percent directive d argpos' rest read k' argpos'' emit ih =>
    obtain rfl := not_not.mp percent
    rw [sprintfLoop_directive directive read emit, ih]
    obtain ⟨text, eq⟩ := @emit_room F cs args bytes d argpos' (rest.head?.getD 0)
    rcases Nat.eq_zero_or_pos k.room with full | room
    · rw [emit_full full] at emit
      cases emit
      rfl
    · rw [eq k room] at emit
      obtain ⟨t, -, same⟩ := Option.map_eq_some_iff.mp emit
      cases same
      rfl

/-- What a lower cap leaves of the output: the start of it, and the warning as long as it is not full. -/
lemma sprintfLoop_starts (bytes : cs.utf8 = false) (h : k.Starts k') (argpos : Nat) (t : List Byte) :
    (sprintfLoop F cs args k argpos t).1.Starts (sprintfLoop F cs args k' argpos t).1 ∧
      (0 < (sprintfLoop F cs args k argpos t).1.room →
        (sprintfLoop F cs args k argpos t).2 = (sprintfLoop F cs args k' argpos t).2) := by
  induction k', argpos, t using sprintfLoop.induct F cs args generalizing k with
  | case1 k' argpos =>
    rw [sprintfLoop, sprintfLoop]
    exact ⟨h, fun _ => rfl⟩
  | case2 k' argpos c s plain ih =>
    rw [sprintfLoop_text plain, sprintfLoop_text plain]
    refine ih ?_
    rw [Sink.push_eq, Sink.push_eq]
    exact h.write [c]
  | case3 k' argpos c s percent escape ih =>
    obtain rfl := not_not.mp percent
    rw [sprintfLoop_percent escape, sprintfLoop_percent escape]
    refine ih ?_
    rw [Sink.push_eq, Sink.push_eq]
    exact h.write [percentByte]
  | case4 k' argpos c s percent directive bad =>
    obtain rfl := not_not.mp percent
    rw [sprintfLoop_bad directive bad, sprintfLoop_bad directive bad]
    exact ⟨h, fun _ => rfl⟩
  | case5 k' argpos c s percent directive d argpos' rest read unknown =>
    obtain rfl := not_not.mp percent
    rw [sprintfLoop_unknown directive read unknown]
    rcases Nat.eq_zero_or_pos k.room with full | room
    · have stays := @sprintfLoop_full F cs args k full argpos (percentByte :: s)
      rw [stays]
      exact ⟨h, fun room => by omega⟩
    · obtain ⟨text, eq⟩ := @emit_room F cs args bytes d argpos' (rest.head?.getD 0)
      rw [eq k' (h.room room)] at unknown
      have same : d.emit F cs args k argpos' (rest.head?.getD 0) = none := by
        rw [eq k room, Option.map_eq_none_iff.mp unknown]
        rfl
      rw [sprintfLoop_unknown directive read same]
      exact ⟨h, fun _ => rfl⟩
  | case6 k' argpos c s percent directive d argpos' rest read k'' argpos'' emit ih =>
    obtain rfl := not_not.mp percent
    rw [sprintfLoop_directive directive read emit]
    obtain ⟨text, eq⟩ := @emit_room F cs args bytes d argpos' (rest.head?.getD 0)
    rcases Nat.eq_zero_or_pos k.room with full | room
    · rw [sprintfLoop_directive directive read (emit_full full d argpos' _)]
      rcases Nat.eq_zero_or_pos k'.room with full' | room'
      · rw [emit_full full'] at emit
        cases emit
        exact ih h
      · rw [eq k' room'] at emit
        obtain ⟨t, -, same⟩ := Option.map_eq_some_iff.mp emit
        cases same
        exact ih (h.full full t)
    · rw [eq k' (h.room room)] at emit
      obtain ⟨t, is, same⟩ := Option.map_eq_some_iff.mp emit
      cases same
      have emits := eq k room
      rw [is, Option.map_some] at emits
      rw [sprintfLoop_directive directive read emits]
      exact ih (h.write t)

/-- In bytes the limit of `sprintf` cuts its output off and changes nothing else: for every format and
all arguments the output is the start of what would be printed without the limit, and as long as the
limit is not reached the warning is the same. -/
theorem sprintf_truncates (F : FloatOps) (bytes : cs.utf8 = false) (args : FormatArgs) :
    let whole := sprintfLoop F cs args (.new usizeMax le_rfl) 1 (args.str 0)
    (sprintfImpl F cs args).1 = whole.1.buf.take sprintfMax ∧
      ((sprintfImpl F cs args).1.length < sprintfMax → (sprintfImpl F cs args).2 = whole.2) := by
  have empty : (Sink.new sprintfMax (by decide)).Starts (.new usizeMax le_rfl) :=
    ⟨by decide, rfl⟩
  obtain ⟨starts, warns⟩ := @sprintfLoop_starts F cs args _ _ bytes empty 1 (args.str 0)
  have cap : (sprintfLoop F cs args (.new sprintfMax (by decide)) 1 (args.str 0)).1.cap = sprintfMax :=
    sprintfLoop_cap bytes _ 1 _
  refine ⟨?_, fun less => warns ?_⟩
  · show (sprintfLoop F cs args (.new sprintfMax (by decide)) 1 (args.str 0)).1.buf = _
    rw [starts.buf, cap]
  · show 0 < _ - _
    rw [cap]
    exact Nat.sub_pos_of_lt less

/-- A width that is larger than the limit. -/
theorem sprintf_truncates_wide : ∃ args : FormatArgs,
    args.str 0 = [37, 55, 48, 48, 48, 48, 115] ∧
    (sprintfImpl .onZero ⟨false, .quake⟩ args).1
      = (sprintfLoop .onZero ⟨false, .quake⟩ args (.new usizeMax le_rfl) 1 (args.str 0)).1.buf.take
        sprintfMax :=
  ⟨⟨2, fun _ => (0, 0, 0), fun _ => [37, 55, 48, 48, 48, 48, 115]⟩, rfl,
    (sprintf_truncates .onZero rfl _).1⟩

end Reading

end Qcvm.Stdlib

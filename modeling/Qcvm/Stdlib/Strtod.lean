import Qcvm.Lib.Decimal
import Qcvm.Stdlib.Charset
import Qcvm.Stdlib.HexFloat

/-!
# Reading doubles

`strtod`. A decimal number is taken apart into its digits and an exponent, and the double is the one that
the standard library parses from these: a parameter of the model, of which the results assume that it is
correctly rounded (`ParsesNearest`).
-/

namespace Qcvm.Stdlib

open Lib

/-- `f64::NAN`. -/
def f64Nan : DWord := 0x7FF8000000000000

/-- The double with the other sign. -/
def negateF64 (d : DWord) : DWord := d ^^^ 0x8000000000000000

/-- `starts_with_ci`. -/
def startsWithCi (s word : List Byte) : Bool :=
  (s.take word.length).map asciiLower == word.map asciiLower

/-- The locals of the digit loop of `strtod`. -/
structure DecimalRun where
  mantissa : List Byte
  fracDigits : Int
  any : Bool
  seenPoint : Bool
  deriving DecidableEq, Repr

namespace DecimalRun

/-- The locals before the loop. -/
def start : DecimalRun := ⟨[], 0, false, false⟩

/-- One digit; the zeros in front of the number are not kept. -/
def digit (r : DecimalRun) (c : Byte) : DecimalRun :=
  { r with
    any := true
    mantissa := if r.mantissa = [] ∧ c = zeroDigit then r.mantissa else r.mantissa ++ [c]
    fracDigits := if r.seenPoint then addI64 r.fracDigits 1 else r.fracDigits }

/-- The digit loop: the locals behind it and the number of bytes that it takes. -/
def read (r : DecimalRun) : List Byte → DecimalRun × Nat
  | [] => (r, 0)
  | c :: s =>
    if c = pointByte ∧ r.seenPoint = false then
      let (r, n) := { r with seenPoint := true }.read s
      (r, n + 1)
    else if (digitOf 10 c).isSome then
      let (r, n) := (r.digit c).read s
      (r, n + 1)
    else (r, 0)

end DecimalRun

/-- The exponent a text starts with, and the number of bytes that it takes. -/
def readDecimalExponent (t : List Byte) : Int × Nat :=
  if t.head? = some 101 ∨ t.head? = some 69 then
    let (negative, n) := readSign (t.drop 1)
    let digits := (t.drop (1 + n)).takeWhile fun c => (digitOf 10 c).isSome
    if digits = [] then (0, 0)
    else
      let e := decimalI64 digits
      (if negative then clampI64 (-e) else e, 1 + n + digits.length)
  else (0, 0)

/-- The bytes of `nan`, with a parenthesis behind it. -/
def nanLength (rest : List Byte) : Nat :=
  if rest[3]? = some 40 then
    let inner := ((rest.drop 4).takeWhile fun c => isAlphanumeric c || c = 95).length
    if rest[inner + 4]? = some 41 then inner + 5 else 3
  else 3

/-- `strtod`: the value and the bytes it takes. `parse` is `f64::from_str` on digits and an exponent. -/
def strtod (F : FloatOps) (ldexp : DWord → Int → DWord) (parse : List Byte → Int → DWord)
    (s : List Byte) : DWord × Nat :=
  let spaces := (s.takeWhile isCSpace).length
  let (negative, n) := readSign (s.drop spaces)
  let i := spaces + n
  let sign (d : DWord) : DWord := if negative then negateF64 d else d
  let rest := s.drop i
  if startsWithCi rest [105, 110, 102] then
    (sign f64Infinity,
      i + if startsWithCi rest [105, 110, 102, 105, 110, 105, 116, 121] then 8 else 3)
  else if startsWithCi rest [110, 97, 110] then (sign f64Nan, i + nanLength rest)
  else if rest.head? = some zeroDigit ∧ (rest[1]? = some 120 ∨ rest[1]? = some 88) then
    match parseHexFloat F ldexp (rest.drop 2) with
    | some (v, n) => (sign v, i + 2 + n)
    | none => (sign f64Zero, i + 1)
  else
    let (r, n) := DecimalRun.start.read rest
    if r.any = false then (f64Zero, 0)
    else
      let (exp, k) := readDecimalExponent (rest.drop n)
      let value :=
        if r.mantissa = [] then f64Zero
        else parse r.mantissa (max (-1000000000) (min 1000000000 (subI64 exp r.fracDigits)))
      (sign value, i + n + k)

/-! ## Decimal numbers -/

/-- The number that decimal digits stand for. -/
def decimalOf (s : List Byte) : Nat := Nat.ofDigits 10 (digitValues 10 s).reverse

/-- What is documented of `f64::from_str`: the double nearest to the decimal number. -/
def ParsesNearest (parse : List Byte → Int → DWord) : Prop :=
  ∀ (s : List Byte) (e : Int), s ≠ [] → (∀ c ∈ s, (digitOf 10 c).isSome) →
    -1000000000 ≤ e → e ≤ 1000000000 →
      F64Nearest (decimalOf s * (10 : ℚ) ^ e) (parse s e) ∧ (parse s e).msb = false

/-- A decimal number, in its parts: digits with an optional point, and an optional exponent with its
mark and its sign. -/
structure DecimalNumber where
  whole : List Byte
  point : Bool
  frac : List Byte
  exponent : Option (Byte × List Byte × List Byte)
  values : ∀ c ∈ whole ++ frac, (digitOf 10 c).isSome
  nonempty : whole ≠ []
  frac_eq : point = false → frac = []
  exponent_form : ∀ x ∈ exponent, (x.1 = 101 ∨ x.1 = 69) ∧
    (x.2.1 = [] ∨ x.2.1 = [plusSign] ∨ x.2.1 = [minusSign]) ∧
    x.2.2 ≠ [] ∧ ∀ c ∈ x.2.2, (digitOf 10 c).isSome

namespace DecimalNumber

/-- The text before the exponent. -/
def mantissa (n : DecimalNumber) : List Byte :=
  n.whole ++ if n.point then pointByte :: n.frac else []

/-- The text of a number. -/
def text (n : DecimalNumber) : List Byte :=
  n.mantissa ++ n.exponent.elim [] fun x => x.1 :: (x.2.1 ++ x.2.2)

/-- The exponent. -/
def power (n : DecimalNumber) : Int :=
  n.exponent.elim 0 fun x => if x.2.1 = [minusSign] then -decimalOf x.2.2 else decimalOf x.2.2

/-- The number. -/
def value (n : DecimalNumber) : ℚ :=
  decimalOf (n.whole ++ n.frac) * (10 : ℚ) ^ (n.power - n.frac.length)

end DecimalNumber

section Reading

variable {F : FloatOps} {ldexp : DWord → Int → DWord} {parse : List Byte → Int → DWord}
variable {r : DecimalRun} {ds s t rest : List Byte} {f : Nat}

/-- The locals after digits `ds`, of which `f` stand behind the point. -/
structure DecimalRun.Holds (r : DecimalRun) (ds : List Byte) (f : Nat) : Prop where
  mantissa : r.mantissa = ds.dropWhile (· = zeroDigit)
  any : r.any = true ↔ ds ≠ []
  frac : r.fracDigits = f

lemma DecimalRun.Holds.digit {c : Byte} (h : r.Holds ds f)
    (few : r.seenPoint = true → f < 2 ^ 62) :
    (r.digit c).Holds (ds ++ [c]) (f + if r.seenPoint then 1 else 0) := by
  obtain ⟨mantissa, any, frac⟩ := h
  refine ⟨?_, ?_, ?_⟩
  · unfold DecimalRun.digit
    dsimp only
    rw [mantissa, List.dropWhile_append]
    by_cases none : ds.dropWhile (· = zeroDigit) = []
    · rw [none, List.isEmpty_nil, if_pos rfl]
      by_cases zero : c = zeroDigit
      · rw [if_pos ⟨rfl, zero⟩, List.dropWhile_cons_of_pos (by simpa using zero), List.dropWhile_nil]
      · rw [if_neg (fun h => zero h.2), List.dropWhile_cons_of_neg (by simpa using zero),
          List.nil_append]
    · rw [if_neg (fun h => none h.1), if_neg (by simpa using none)]
  · exact iff_of_true rfl (List.append_ne_nil_of_right_ne_nil _ (List.cons_ne_nil _ _))
  · unfold DecimalRun.digit
    dsimp only
    cases seen : r.seenPoint with
    | false => exact frac
    | true =>
      have few := few seen
      rw [if_pos rfl, if_pos rfl, frac, addI64_eq (by omega) (by omega)]
      push_cast
      rfl

/-- Digits and what follows them. -/
lemma DecimalRun.Holds.read_digits (h : r.Holds ds f) (values : ∀ c ∈ s, (digitOf 10 c).isSome)
    (few : r.seenPoint = true → f + s.length < 2 ^ 62) :
    ∃ r' : DecimalRun, r.read (s ++ t) = ((r'.read t).1, (r'.read t).2 + s.length) ∧
      r'.Holds (ds ++ s) (f + if r.seenPoint then s.length else 0) ∧
      r'.seenPoint = r.seenPoint := by
  induction s generalizing r ds f with
  | nil => exact ⟨r, rfl, by simpa using h, rfl⟩
  | cons c s ih =>
    rw [List.length_cons] at few
    have digit := values c List.mem_cons_self
    obtain ⟨r', read, holds, seen⟩ := ih (h.digit (c := c) fun seen => by have := few seen; omega)
      (fun c mem => values c (List.mem_cons_of_mem _ mem)) fun seen => by
        have now : r.seenPoint = true := seen
        have := few now
        rw [if_pos now]
        omega
    refine ⟨r', ?_, ?_, seen⟩
    · have other : ¬(c = pointByte ∧ r.seenPoint = false) := by
        rintro ⟨rfl, -⟩
        exact absurd digit (by decide)
      rw [List.cons_append, DecimalRun.read, if_neg other, if_pos digit, read]
      rfl
    · rw [List.append_assoc] at holds
      have same : (r.digit c).seenPoint = r.seenPoint := rfl
      rw [same] at holds
      cases seenPoint : r.seenPoint with
      | false => simpa [seenPoint] using holds
      | true => simpa [seenPoint, Nat.add_assoc, Nat.add_comm 1] using holds

/-- Where the number does not go on. -/
lemma DecimalRun.read_stop (h : ∀ c ∈ t.head?, digitOf 10 c = none ∧ (r.seenPoint = false → c ≠ pointByte)) :
    r.read t = (r, 0) := by
  cases t with
  | nil => rfl
  | cons c t =>
    obtain ⟨none, other⟩ := h c rfl
    rw [DecimalRun.read, if_neg fun point => other point.2 point.1, if_neg (by rw [none]; decide)]

/-- The digits of a number. -/
lemma read_decimal (n : DecimalNumber)
    (stop : ∀ c ∈ t.head?, digitOf 10 c = none ∧ c ≠ pointByte) (few : n.frac.length < 2 ^ 61) :
    ∃ r : DecimalRun, DecimalRun.start.read (n.mantissa ++ t) = (r, n.mantissa.length) ∧
      r.Holds (n.whole ++ n.frac) n.frac.length := by
  have wholes : ∀ c ∈ n.whole, (digitOf 10 c).isSome :=
    fun c mem => n.values c (List.mem_append_left _ mem)
  have fracs : ∀ c ∈ n.frac, (digitOf 10 c).isSome :=
    fun c mem => n.values c (List.mem_append_right _ mem)
  have first : DecimalRun.start.Holds [] 0 := ⟨rfl, by decide, rfl⟩
  unfold DecimalNumber.mantissa
  cases point : n.point with
  | false =>
    obtain ⟨r, read, holds, seen⟩ := first.read_digits (t := t) wholes (Bool.false_ne_true · |>.elim)
    have stops : r.read t = (r, 0) :=
      DecimalRun.read_stop fun c mem => ⟨(stop c mem).1, fun _ => (stop c mem).2⟩
    rw [stops, Nat.zero_add] at read
    rw [if_neg Bool.false_ne_true, n.frac_eq point, List.append_nil]
    exact ⟨r, read, holds⟩
  | true =>
    obtain ⟨r, read, holds, seen⟩ :=
      first.read_digits (t := pointByte :: (n.frac ++ t)) wholes (Bool.false_ne_true · |>.elim)
    have behind : DecimalRun.Holds { r with seenPoint := true } n.whole 0 :=
      ⟨holds.mantissa, holds.any, holds.frac⟩
    obtain ⟨r', read', holds', seen'⟩ := behind.read_digits (t := t) fracs fun _ => by omega
    have stops : r'.read t = (r', 0) :=
      DecimalRun.read_stop fun c mem => ⟨(stop c mem).1, fun _ => (stop c mem).2⟩
    rw [stops, Nat.zero_add] at read'
    refine ⟨r', ?_, by simpa using holds'⟩
    have flips : r.read (pointByte :: (n.frac ++ t)) = (r', n.frac.length + 1) := by
      rw [DecimalRun.read, if_pos ⟨rfl, seen⟩, read']
    rw [if_pos rfl, List.append_assoc, List.cons_append, read, flips, List.length_append,
      List.length_cons, Nat.add_comm n.whole.length]

lemma space_other : ∀ c : Byte, isCSpace c = true →
    digitOf 10 c = none ∧ c ≠ pointByte ∧ c ≠ 120 ∧ c ≠ 88 ∧ c ≠ 101 ∧ c ≠ 69 := by
  decide

lemma decimal_other : ∀ c : Byte, (digitOf 10 c).isSome → c ≠ plusSign ∧ c ≠ minusSign ∧
    isCSpace c = false ∧ asciiLower c ≠ 105 ∧ asciiLower c ≠ 110 ∧ c ≠ 120 ∧ c ≠ 88 := by
  decide

/-- The exponent of a number. -/
lemma read_exponent (n : DecimalNumber) (small : |n.power| ≤ 1000000000)
    (stop : ∀ c ∈ t.head?, isCSpace c = true) :
    readDecimalExponent ((n.exponent.elim [] fun x => x.1 :: (x.2.1 ++ x.2.2)) ++ t) =
      (n.power, (n.exponent.elim [] fun x => x.1 :: (x.2.1 ++ x.2.2)).length) := by
  have form := n.exponent_form
  unfold DecimalNumber.power at small ⊢
  cases exponent : n.exponent with
  | none =>
    have other : ¬(t.head? = some 101 ∨ t.head? = some 69) := by
      rintro (e | e)
      · exact absurd (stop _ e) (by decide)
      · exact absurd (stop _ e) (by decide)
    unfold readDecimalExponent
    exact if_neg other
  | some x =>
    obtain ⟨mark, sign, digits⟩ := x
    obtain ⟨marks, signs, nonempty, values⟩ := form _ exponent
    rw [exponent] at small
    dsimp only [Option.elim_some] at marks signs nonempty values small ⊢
    rw [List.cons_append]
    unfold readDecimalExponent
    have marked : (mark :: (sign ++ digits ++ t)).head? = some 101 ∨
        (mark :: (sign ++ digits ++ t)).head? = some 69 :=
      marks.imp (congrArg some) (congrArg some)
    rw [if_pos marked]
    have read : readSign ((mark :: (sign ++ digits ++ t)).drop 1) =
        (decide (sign = [minusSign]), sign.length) := by
      rw [List.drop_one, List.tail_cons]
      rcases signs with rfl | rfl | rfl
      · obtain ⟨c, s, rfl⟩ := List.exists_cons_of_ne_nil nonempty
        have digit := values c List.mem_cons_self
        have notMinus : c ≠ minusSign := by
          rintro rfl
          exact absurd digit (by decide)
        have notPlus : c ≠ plusSign := by
          rintro rfl
          exact absurd digit (by decide)
        simp [readSign, notMinus, notPlus]
      · rfl
      · rfl
    have behind : ((mark :: (sign ++ digits ++ t)).drop (1 + sign.length)).takeWhile
        (fun c => (digitOf 10 c).isSome) = digits := by
      rw [Nat.add_comm, List.drop_succ_cons, List.append_assoc, List.drop_left,
        List.takeWhile_append_of_pos values]
      cases t with
      | nil => rw [List.takeWhile_nil, List.append_nil]
      | cons c t =>
        have other : ¬(digitOf 10 c).isSome = true := by
          rw [(space_other c (stop c rfl)).1]
          exact Bool.false_ne_true
        rw [List.takeWhile_cons_of_neg (p := fun c => (digitOf 10 c).isSome) other, List.append_nil]
    rw [read]
    dsimp only
    rw [behind, if_neg nonempty]
    have value := decimalI64_eq digits
    change decimalI64 digits = min ((decimalOf digits : ℕ) : ℤ) 9223372036854775807 at value
    refine Prod.ext ?_ ?_
    · dsimp only
      by_cases minus : sign = [minusSign]
      · rw [if_pos minus, abs_le] at small
        rw [if_pos (by simpa using minus), if_pos minus, value]
        unfold clampI64 i64Max i64Min
        omega
      · rw [if_neg minus, abs_le] at small
        rw [if_neg (by simpa using minus), if_neg minus, value]
        omega
    · simp only [List.length_cons, List.length_append]
      omega

/-- Zeros in front of a number do not change it. -/
lemma decimalOf_dropWhile (s : List Byte) : decimalOf (s.dropWhile (· = zeroDigit)) = decimalOf s := by
  induction s with
  | nil => rfl
  | cons c s ih =>
    by_cases zero : c = zeroDigit
    · subst zero
      rw [List.dropWhile_cons_of_pos (by simp), ih]
      unfold decimalOf digitValues
      rw [List.map_cons, List.reverse_cons, Nat.ofDigits_append]
      rfl
    · rw [List.dropWhile_cons_of_neg (by simpa using zero)]

/-- The text of a number starts with a digit, and no `x` follows it. -/
lemma text_head (n : DecimalNumber) (stop : ∀ c ∈ t.head?, isCSpace c = true) :
    ∃ c u, n.text ++ t = c :: u ∧ (digitOf 10 c).isSome ∧ ∀ b ∈ u.head?, b ≠ 120 ∧ b ≠ 88 := by
  obtain ⟨c, w, whole⟩ := List.exists_cons_of_ne_nil n.nonempty
  have digits : ∀ b ∈ c :: w, (digitOf 10 b).isSome :=
    fun b mem => n.values b (List.mem_append_left _ (by rw [whole]; exact mem))
  have text : n.text ++ t = c :: (w ++ ((if n.point then pointByte :: n.frac else []) ++
      ((n.exponent.elim [] fun x => x.1 :: (x.2.1 ++ x.2.2)) ++ t))) := by
    unfold DecimalNumber.text DecimalNumber.mantissa
    rw [whole]
    simp only [List.append_assoc, List.cons_append]
  refine ⟨c, _, text, digits c List.mem_cons_self, fun b head => ?_⟩
  cases w with
  | cons d w =>
    cases head
    obtain ⟨-, -, -, -, -, lower, upper⟩ := decimal_other b (digits b (by simp))
    exact ⟨lower, upper⟩
  | nil =>
    cases point : n.point with
    | true =>
      rw [point] at head
      cases head
      decide
    | false =>
      rw [point] at head
      have form := n.exponent_form
      cases exponent : n.exponent with
      | some x =>
        rw [exponent] at head
        cases head
        rcases (form x exponent).1 with mark | mark
        · rw [mark]
          decide
        · rw [mark]
          decide
      | none =>
        rw [exponent] at head
        obtain ⟨-, -, lower, upper, -⟩ := space_other b (stop b head)
        exact ⟨lower, upper⟩

/-- What follows the digits of a number is no digit and no point. -/
lemma mantissa_stop (n : DecimalNumber) (stop : ∀ c ∈ t.head?, isCSpace c = true) :
    ∀ c ∈ ((n.exponent.elim [] fun x => x.1 :: (x.2.1 ++ x.2.2)) ++ t).head?,
      digitOf 10 c = none ∧ c ≠ pointByte := by
  intro c head
  have form := n.exponent_form
  cases exponent : n.exponent with
  | some x =>
    rw [exponent] at head
    cases head
    rcases (form x exponent).1 with mark | mark
    · rw [mark]
      decide
    · rw [mark]
      decide
  | none =>
    rw [exponent] at head
    obtain ⟨digit, point, -⟩ := space_other c (stop c head)
    exact ⟨digit, point⟩

/-- A decimal number is read between spaces, and rounded correctly. -/
lemma strtod_decimal (laws : ParsesNearest parse) (n : DecimalNumber) {sign : List Byte}
    (signs : sign = [] ∨ sign = [plusSign] ∨ sign = [minusSign]) (before : ∀ c ∈ s, isCSpace c = true)
    (behind : ∀ c ∈ t.head?, isCSpace c = true) (power : |n.power| ≤ 500000000)
    (frac : n.frac.length ≤ 500000000) :
    ∃ d, strtod F ldexp parse (s ++ (sign ++ (n.text ++ t))) =
        (if sign = [minusSign] then negateF64 d else d, s.length + sign.length + n.text.length) ∧
      F64Nearest n.value d ∧ d.msb = false := by
  obtain ⟨c, u, text, digit, hex⟩ := text_head n behind
  obtain ⟨notPlus, notMinus, noSpace, notInf, notNan, -⟩ := decimal_other c digit
  have spaces : (s ++ (sign ++ (n.text ++ t))).takeWhile isCSpace = s := by
    rw [List.takeWhile_append_of_pos before, text]
    rcases signs with rfl | rfl | rfl
    · rw [List.nil_append, List.takeWhile_cons_of_neg (by rw [noSpace]; decide), List.append_nil]
    · exact List.append_nil _
    · exact List.append_nil _
  have read : readSign (sign ++ (n.text ++ t)) = (decide (sign = [minusSign]), sign.length) := by
    rw [text]
    rcases signs with rfl | rfl | rfl
    · simp [readSign, notMinus, notPlus]
    · rfl
    · rfl
  have rest : (s ++ (sign ++ (n.text ++ t))).drop (s.length + sign.length) = n.text ++ t := by
    rw [← List.drop_drop, List.drop_left, List.drop_left]
  have noWord (b : Byte) (w : List Byte) (other : asciiLower c ≠ asciiLower b) :
      ¬startsWithCi (n.text ++ t) (b :: w) = true := by
    rw [text]
    unfold startsWithCi
    rw [List.length_cons, List.take_succ_cons, List.map_cons, List.map_cons, beq_iff_eq]
    exact fun same => other (List.cons.inj same).1
  -- The text is no word and no hexadecimal number, so the decimal path reads it.
  have noHex : ¬((n.text ++ t).head? = some zeroDigit ∧
      ((n.text ++ t)[1]? = some 120 ∨ (n.text ++ t)[1]? = some 88)) := by
    rw [text]
    have second : (c :: u)[1]? = u.head? := by
      rw [List.getElem?_cons_succ, List.head?_eq_getElem?]
    rw [second]
    rintro ⟨-, lower | upper⟩
    · exact (hex _ lower).1 rfl
    · exact (hex _ upper).2 rfl
  obtain ⟨r, digits, holds⟩ := read_decimal n (mantissa_stop n behind) (by omega)
  have split : n.text ++ t =
      n.mantissa ++ ((n.exponent.elim [] fun x => x.1 :: (x.2.1 ++ x.2.2)) ++ t) := by
    unfold DecimalNumber.text
    rw [List.append_assoc]
  have full : n.whole ++ n.frac ≠ [] := List.append_ne_nil_of_left_ne_nil n.nonempty _
  rw [abs_le] at power
  have reach : subI64 n.power n.frac.length = n.power - n.frac.length :=
    subI64_eq (by omega) (by omega)
  -- The bounds on the exponent and the decimals keep the clamp out of reach.
  have clamp : max (-1000000000) (min 1000000000 (n.power - n.frac.length)) =
      n.power - n.frac.length := by omega
  have value : decimalOf r.mantissa = decimalOf (n.whole ++ n.frac) := by
    rw [holds.mantissa, decimalOf_dropWhile]
  refine ⟨if r.mantissa = [] then f64Zero else parse r.mantissa (n.power - n.frac.length), ?_, ?_⟩
  · unfold strtod
    rw [spaces]
    dsimp only
    rw [List.drop_left, read]
    dsimp only
    rw [rest, if_neg (noWord 105 _ notInf), if_neg (noWord 110 _ notNan), if_neg noHex, split, digits]
    dsimp only
    rw [if_neg (by rw [holds.any.mpr full]; decide), List.drop_left,
      read_exponent n (abs_le.mpr (by omega)) behind, holds.frac, reach, clamp]
    unfold DecimalNumber.text
    rw [List.length_append]
    simp only [decide_eq_true_eq, Nat.add_assoc]
  · unfold DecimalNumber.value
    split
    -- No significant digits are left: the number is zero.
    next none =>
      rw [none] at value
      have zero : decimalOf (n.whole ++ n.frac) = 0 := value.symm
      rw [zero, Nat.cast_zero, zero_mul]
      exact ⟨f64Nearest_zero le_rfl (two_zpow_pos _), by decide⟩
    next some =>
      rw [← value]
      refine laws _ _ some (fun c mem => n.values c ?_) (by omega) (by omega)
      rw [holds.mantissa] at mem
      exact (List.dropWhile_suffix _).subset mem

end Reading

/-! ## A parser that is correctly rounded -/

/-- `f64::from_str` in integers: the first 64 bits of the number, rounded as those of a hex float. -/
def softParse (s : List Byte) (e : Int) : DWord :=
  let x : ℚ := decimalOf s * 10 ^ e
  let lead := Int.log 2 x
  if x = 0 ∨ lead < -1200 then f64Zero
  else if 1100 < lead then f64Infinity
  else
    let m := ⌊x * 2 ^ (63 - lead)⌋₊
    LeadBits.toF64 softOps softLdexp ⟨m, decide ((m : ℚ) ≠ x * 2 ^ (63 - lead)), lead - 63⟩

lemma f64Scaled_msb (m : Nat) (e : Int) : (f64Scaled m e).msb = false := by
  have short (k : Int) (n : Nat) (high : k ≤ 971) (less : n < 2 ^ 53) : (f64Encode n k).msb = false := by
    have bits : (k + 1074).toNat * 2 ^ 52 + n < 2 ^ 63 := by omega
    rw [BitVec.msb_eq_decide, f64Encode, BitVec.toNat_ofNat, Nat.mod_eq_of_lt (by omega),
      decide_eq_false_iff_not]
    omega
  unfold f64Scaled
  dsimp only
  split
  next => decide
  next some =>
    split
    next => decide
    next small =>
      have log : m < 2 ^ (m.log2 + 1) := Nat.lt_log2_self
      refine short _ _ (by omega) ?_
      split
      next above =>
        obtain ⟨k, gap⟩ : ∃ k : ℕ, k = (e - max (e + m.log2 - 52) (-1074)).toNat := ⟨_, rfl⟩
        have le : m.log2 + 1 + k ≤ 53 := by omega
        rw [← gap]
        calc m * 2 ^ k
          _ < 2 ^ (m.log2 + 1) * 2 ^ k := Nat.mul_lt_mul_of_pos_right log (Nat.two_pow_pos k)
          _ = 2 ^ (m.log2 + 1 + k) := (pow_add 2 _ k).symm
          _ ≤ 2 ^ 53 := Nat.pow_le_pow_right (by decide) le
      next beneath =>
        obtain ⟨k, gap⟩ : ∃ k : ℕ, k = (max (e + m.log2 - 52) (-1074) - e).toNat := ⟨_, rfl⟩
        have le : m.log2 + 1 ≤ 53 + k := by omega
        rw [← gap, Nat.div_lt_iff_lt_mul (Nat.two_pow_pos k), ← pow_add]
        exact log.trans_le (Nat.pow_le_pow_right (by decide) le)

lemma toF64_msb (l : LeadBits) : (l.toF64 softOps softLdexp).msb = false := by
  have scaled (d : DWord) (k : Int) (pos : d.msb = false) : (softLdexp d k).msb = false := by
    unfold softLdexp
    split
    next => exact f64Scaled_msb _ _
    next => exact pos
  unfold LeadBits.toF64
  dsimp only
  split
  next => decide
  next =>
    split
    next => decide
    next =>
      split
      next => decide
      next => exact scaled _ _ (f64Scaled_msb _ _)

/-- The parser is correctly rounded. -/
lemma softParse_nearest : ParsesNearest softParse := by
  intro s e some values low high
  have none : (0 : ℚ) ≤ decimalOf s * 10 ^ e :=
    mul_nonneg (Nat.cast_nonneg _) (ten_zpow_pos e).le
  unfold softParse
  dsimp only
  generalize (decimalOf s : ℚ) * 10 ^ e = x at none
  have above : x < 2 ^ (Int.log 2 x + 1) := by
    exact_mod_cast Int.lt_zpow_succ_log_self (b := 2) (by decide) x
  split
  next tiny =>
    refine ⟨f64Nearest_zero none ?_, by decide⟩
    rcases tiny with zero | small
    · rw [zero]
      exact two_zpow_pos _
    · exact above.trans_le (two_zpow_le (by omega))
  next other =>
    obtain ⟨nonzero, least⟩ := not_or.mp other
    have pos : 0 < x := lt_of_le_of_ne none (Ne.symm nonzero)
    have lower : (2 : ℚ) ^ Int.log 2 x ≤ x := by
      exact_mod_cast Int.zpow_log_le_self (b := 2) (by decide) pos
    split
    next large =>
      refine ⟨f64Nearest_infinity (overflow_le.trans ?_), by decide⟩
      exact (two_zpow_le (by omega)).trans lower
    next most =>
      refine ⟨?_, toF64_msb _⟩
      generalize Int.log 2 x = lead at above lower least most
      have unit := two_zpow_pos (lead - 63)
      have scale : (2 : ℚ) ^ (63 - lead) * 2 ^ (lead - 63) = 1 := by
        rw [← zpow_add₀ (by norm_num)]
        norm_num
      have back : x * 2 ^ (63 - lead) * 2 ^ (lead - 63) = x := by
        rw [mul_assoc, scale, mul_one]
      have first : (2 : ℚ) ^ 63 ≤ x * 2 ^ (63 - lead) := by
        have grown := mul_le_mul_of_nonneg_right lower (two_zpow_pos (63 - lead)).le
        rw [← zpow_add₀ (by norm_num), add_sub_cancel] at grown
        exact_mod_cast grown
      have last : x * 2 ^ (63 - lead) < 2 ^ 64 := by
        have grown := mul_lt_mul_of_pos_right above (two_zpow_pos (63 - lead))
        rw [← zpow_add₀ (by norm_num), show lead + 1 + (63 - lead) = 64 by ring] at grown
        exact_mod_cast grown
      generalize x * 2 ^ (63 - lead) = y at back first last
      have floor : (⌊y⌋₊ : ℚ) ≤ y := Nat.floor_le ((by norm_num : (0 : ℚ) ≤ 2 ^ 63).trans first)
      have next : y < ⌊y⌋₊ + 1 := Nat.lt_floor_add_one y
      have bits : 2 ^ 63 ≤ ⌊y⌋₊ := Nat.le_floor (by exact_mod_cast first)
      have fits : ⌊y⌋₊ < 2 ^ 64 := by exact_mod_cast floor.trans_lt last
      have within : Within x ⌊y⌋₊ (lead - 63) (decide ((⌊y⌋₊ : ℚ) ≠ y)) := by
        rw [← back]
        refine ⟨mul_le_mul_of_nonneg_right floor unit.le, mul_lt_mul_of_pos_right next unit, ?_⟩
        rw [decide_eq_false_iff_not, not_not, mul_left_inj' unit.ne']
        exact eq_comm
      refine toF64_nearest scaleLaws_soft within ?_ fits (fun _ => ?_) ?_ ?_
      · have least : 0 < 2 ^ 63 := by decide
        exact (least.trans_le bits).ne'
      · exact (Nat.pow_le_pow_right (by decide) (by decide)).trans bits
      · dsimp only
        omega
      · dsimp only
        omega

end Qcvm.Stdlib

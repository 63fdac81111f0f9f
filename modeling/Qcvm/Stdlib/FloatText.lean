import Mathlib.Data.List.DropRight
import Qcvm.Lib.Decimal
import Qcvm.Stdlib.Format
import Qcvm.Stdlib.HexFloat

/-!
# Printing doubles

The conversions `e`, `f` and `g` of `stdlib/format.rs`. The digits come from `core::fmt`, which rounds
the exact value of a double, ties to even. Of the digits that a precision asks for only so many are
made as a double can have; the rest is filled in as zeros. That this cuts nothing off is
`fmtFloat_whole`: what is printed is what all the digits give.
-/

namespace Qcvm.Stdlib

open Lib

/-! ## `core::fmt` -/

/-- The last `k` decimal digits of a number. -/
def lastDigits : Nat → Nat → List Byte
  | 0, _ => []
  | k + 1, n => lastDigits k (n / 10) ++ [digitByte (n % 10)]

/-- A number of units of the last of `p` decimals. -/
def decimalText (n p : Nat) : List Byte :=
  if p = 0 then numberText 10 n else numberText 10 (n / 10 ^ p) ++ pointByte :: lastDigits p n

/-- `format!("{:.*}", p, x)`. -/
def fixedText (x : ℚ) (p : Nat) : List Byte := decimalText (roundEven (x * 10 ^ p)) p

/-- `format!("{:.*e}", p, x)`, split at the `e`: the mantissa and the exponent. -/
def sciText (x : ℚ) (p : Nat) : List Byte × Int :=
  if x = 0 then (decimalText 0 p, 0)
  else
    let (n, e) := roundDigits x p
    (decimalText n p, e)

/-! ## Digits -/

/-- `MAX_FRACTION_DIGITS`. -/
def maxFractionDigits : Nat := 1074

/-- `MAX_SIGNIFICANT_DIGITS`. -/
def maxSignificantDigits : Nat := 767

/-- A point behind digits without decimals, in the alternate form. -/
def withPoint (body : List Byte) (exact : Nat) (alt : Bool) : List Byte :=
  if exact = 0 && alt then body ++ [pointByte] else body

/-- `fixed_digits`: the body and the zeros behind it. -/
def fixedDigits (x : ℚ) (prec : Nat) (alt : Bool) : List Byte × Nat :=
  let exact := min prec maxFractionDigits
  (withPoint (fixedText x exact) exact alt, prec - exact)

/-- `sci_digits`: the body, the zeros behind it and the decimal exponent. -/
def sciDigits (x : ℚ) (prec : Nat) (alt : Bool) : List Byte × Nat × Int :=
  let exact := min prec maxSignificantDigits
  let (body, exp) := sciText x exact
  (withPoint body exact alt, prec - exact, exp)

/-- `exponent_suffix`: at least two digits. -/
def exponentSuffix (x : Int) (upper : Bool) : List Byte :=
  let digits := numberText 10 x.natAbs
  (if upper then 69 else 101) :: (if x < 0 then minusSign else plusSign) ::
    (List.replicate (2 - digits.length) zeroDigit ++ digits)

/-- What is left of the digits of `%g` without the alternate form: no zeros at the end of the decimals,
and no point behind the last digit. -/
def trimDigits (body : List Byte) : List Byte :=
  if body.contains pointByte then
    let body := body.rdropWhile (· == zeroDigit)
    if body.getLast? = some pointByte then body.dropLast else body
  else body

/-! ## The conversions -/

/-- A number without its sign. -/
def f64Magnitude (d : DWord) : Option ℚ := (f64Parts d).map fun p => p.1 * 2 ^ p.2

/-- `f64::is_nan`, on the bits. -/
def f64IsNan (d : DWord) : Bool := d.toNat / 2 ^ 52 % 2 ^ 11 == 2047 && d.toNat % 2 ^ 52 != 0

/-- The sign that `fmt_float` prints. -/
def floatSign (negative : Bool) (spec : Spec) : Option Byte :=
  if negative then some minusSign
  else if spec.plus then some plusSign
  else if spec.space then some spaceByte
  else none

/-- Where the digits of a conversion come from. -/
structure DigitSource where
  fixed : ℚ → Nat → Bool → List Byte × Nat
  sci : ℚ → Nat → Bool → List Byte × Nat × Int

/-- The pieces of a finite number; `conv` is the conversion in lower case. -/
def finitePieces (D : DigitSource) (sign : Option Byte) (x : ℚ) (conv : Byte) (upper : Bool)
    (spec : Spec) : Pieces :=
  let pieces (body : List Byte) (trail : Nat) (suffix : List Byte) : Pieces :=
    ⟨sign, [], 0, body, trail, suffix⟩
  if conv = 102 then
    let (body, trail) := D.fixed x (spec.prec.getD 6) spec.alt
    pieces body trail []
  else if conv = 101 then
    let (body, trail, exp) := D.sci x (spec.prec.getD 6) spec.alt
    pieces body trail (exponentSuffix exp upper)
  else
    let prec := max (spec.prec.getD 6) 1
    let pi := min (prec : Int) i64Max
    -- The exponent after rounding to `prec` significant digits picks the style.
    let exp := (D.sci x (prec - 1) false).2.2
    let p :=
      if exp < pi ∧ -4 ≤ exp then
        let (body, trail) := D.fixed x (subI64 (subI64 pi 1) exp).toNat spec.alt
        pieces body trail []
      else
        let (body, trail, exp) := D.sci x (prec - 1) spec.alt
        pieces body trail (exponentSuffix exp upper)
    if spec.alt then p else { p with body := trimDigits p.body, trail := 0 }

/-- `fmt_float` with the digits of a source. -/
def fmtFloatOf (D : DigitSource) (k : Sink) (d : DWord) (conv : Byte) (spec : Spec) : Sink :=
  let upper := 65 ≤ conv && conv ≤ 90
  let sign := floatSign d.msb spec
  match f64Magnitude d with
  | none =>
    let text : List Byte :=
      match f64IsNan d, upper with
      | true, false => [110, 97, 110]
      | true, true => [78, 65, 78]
      | false, false => [105, 110, 102]
      | false, true => [73, 78, 70]
    Pieces.emit ⟨sign, [], 0, text, 0, []⟩ k spec false
  | some x => (finitePieces D sign x (asciiLower conv) upper spec).emit k spec (spec.zero && !spec.left)

/-- `fmt_float`. -/
def fmtFloat (k : Sink) (d : DWord) (conv : Byte) (spec : Spec) : Sink :=
  fmtFloatOf ⟨fixedDigits, sciDigits⟩ k d conv spec

/-! ## All the digits -/

/-- Every decimal that the precision asks for. -/
def wholeFixed (x : ℚ) (prec : Nat) (alt : Bool) : List Byte × Nat :=
  (withPoint (fixedText x prec) prec alt, 0)

/-- Every significant digit that the precision asks for. -/
def wholeSci (x : ℚ) (prec : Nat) (alt : Bool) : List Byte × Nat × Int :=
  let (body, exp) := sciText x prec
  (withPoint body prec alt, 0, exp)

variable {x : ℚ} {n p k m prec : Nat} {e : Int} {alt : Bool} {d : DWord} {spec : Spec}

lemma digits_scaled (n p k : Nat) :
    lastDigits (p + k) (n * 10 ^ k) = lastDigits p n ++ List.replicate k zeroDigit := by
  induction k with
  | zero => rw [Nat.pow_zero, Nat.mul_one, List.replicate_zero, List.append_nil, Nat.add_zero]
  | succ k ih =>
    have quotient : n * 10 ^ (k + 1) / 10 = n * 10 ^ k := by
      rw [Nat.pow_succ, ← Nat.mul_assoc, Nat.mul_div_cancel _ (by decide)]
    have last : n * 10 ^ (k + 1) % 10 = 0 := by
      rw [Nat.pow_succ, ← Nat.mul_assoc, Nat.mul_mod_left]
    rw [← Nat.add_assoc, lastDigits, quotient, last, ih, List.replicate_succ', List.append_assoc]
    rfl

/-- More decimals of a number that has no further ones. -/
lemma decimalText_scaled (some : 0 < p) :
    decimalText (n * 10 ^ k) (p + k) = decimalText n p ++ List.replicate k zeroDigit := by
  have quotient : n * 10 ^ k / 10 ^ (p + k) = n / 10 ^ p := by
    rw [Nat.pow_add, Nat.mul_div_mul_right _ _ (Nat.pow_pos (by decide))]
  unfold decimalText
  rw [if_neg (by omega), if_neg (by omega), quotient, digits_scaled, List.append_assoc]
  rfl

/-! ## How many digits a double has -/

/-- A double is a decimal number of 1074 decimals and of 767 digits at most. -/
lemma decimal_of_f64 (h : f64Magnitude d = some x) :
    (∃ n : ℕ, x * 10 ^ (maxFractionDigits : ℤ) = n) ∧
      ∃ (m : ℕ) (e : ℤ), x = m * 10 ^ e ∧ m < 10 ^ maxSignificantDigits := by
  obtain ⟨⟨m, e⟩, parts, rfl⟩ := Option.map_eq_some_iff.mp h
  obtain ⟨canonical, high, -⟩ := f64Parts_canonical parts
  obtain ⟨low, lt, -⟩ := canonical_iff.mp canonical
  dsimp only
  constructor
  · obtain ⟨j, above⟩ : ∃ j : ℕ, e + (maxFractionDigits : ℤ) = j :=
      ⟨(e + 1074).toNat, by unfold maxFractionDigits; omega⟩
    have ten (k : ℕ) : (10 : ℚ) ^ (k : ℤ) = 2 ^ (k : ℤ) * 5 ^ k := by
      rw [zpow_natCast, zpow_natCast, ← mul_pow]
      norm_num
    refine ⟨m * (2 ^ j * 5 ^ maxFractionDigits), ?_⟩
    rw [ten, mul_assoc, ← mul_assoc ((2 : ℚ) ^ e), ← zpow_add₀ (by norm_num), above, zpow_natCast]
    rw [Nat.cast_mul, Nat.cast_mul, Nat.cast_pow, Nat.cast_pow, Nat.cast_ofNat, Nat.cast_ofNat]
  · rcases le_or_gt 0 e with whole | fraction
    · obtain ⟨j, rfl⟩ := Int.eq_ofNat_of_zero_le whole
      refine ⟨m * 2 ^ j, 0, ?_, ?_⟩
      · rw [zpow_zero, mul_one, zpow_natCast]
        push_cast
        rfl
      · calc m * 2 ^ j < 2 ^ 53 * 2 ^ j := Nat.mul_lt_mul_of_pos_right lt (Nat.two_pow_pos j)
          _ ≤ 2 ^ 53 * 2 ^ 971 := Nat.mul_le_mul_left _ (Nat.pow_le_pow_right (by decide) (by omega))
          _ < 10 ^ maxSignificantDigits := by decide +kernel
    · obtain ⟨j, below⟩ : ∃ j : ℕ, e = -j := ⟨(-e).toNat, by omega⟩
      refine ⟨m * 5 ^ j, e, ?_, ?_⟩
      · have split : (10 : ℚ) ^ e = 2 ^ e * 5 ^ e := by
          rw [← mul_zpow]
          norm_num
        have cancel : (5 : ℚ) ^ j * 5 ^ e = 1 := by
          rw [below, zpow_neg, zpow_natCast]
          exact mul_inv_cancel₀ (by positivity)
        rw [split]
        push_cast
        rw [mul_comm ((2 : ℚ) ^ e), ← mul_assoc, mul_assoc (m : ℚ), cancel, mul_one]
      · calc m * 5 ^ j < 2 ^ 53 * 5 ^ j := Nat.mul_lt_mul_of_pos_right lt (Nat.pow_pos (by decide))
          _ ≤ 2 ^ 53 * 5 ^ 1074 := Nat.mul_le_mul_left _ (Nat.pow_le_pow_right (by decide) (by omega))
          _ < 10 ^ maxSignificantDigits := by decide +kernel

/-! ## The cut loses nothing -/

/-- Two ways to make digits give one text: zeros are digits of the body, or are filled in behind it. -/
structure Filled (body : List Byte) (trail : Nat) (whole : List Byte) : Prop where
  zeros : whole = body ++ List.replicate trail zeroDigit
  point : trail = 0 ∨ pointByte ∈ body

lemma mem_decimalText (some : 0 < p) : pointByte ∈ decimalText n p := by
  unfold decimalText
  rw [if_neg (by omega)]
  exact List.mem_append_right _ List.mem_cons_self

/-- A cut that leaves digits out leaves some in. -/
lemma filled_cut {f : Nat → Nat} {most : Nat} (some : 0 < most)
    (more : ∀ k, f (most + k) = f most * 10 ^ k) (prec : Nat) (alt : Bool) :
    Filled (withPoint (decimalText (f (min prec most)) (min prec most)) (min prec most) alt)
      (prec - min prec most) (withPoint (decimalText (f prec) prec) prec alt) := by
  rcases Nat.le_total prec most with le | le
  · rw [Nat.min_eq_left le, Nat.sub_self]
    exact ⟨(List.append_nil _).symm, .inl rfl⟩
  · obtain ⟨k, rfl⟩ := Nat.exists_eq_add_of_le le
    have decimals (p : Nat) (body : List Byte) (pos : 0 < p) : withPoint body p alt = body := by
      unfold withPoint
      rw [if_neg]
      rw [Bool.and_eq_true, decide_eq_true_eq]
      omega
    rw [Nat.min_eq_right le, decimals _ _ some, decimals _ _ (by omega), more, Nat.add_sub_cancel_left]
    exact ⟨decimalText_scaled some, .inr (mem_decimalText some)⟩

lemma filled_fixed (h : f64Magnitude d = some x) (prec : Nat) (alt : Bool) :
    Filled (fixedDigits x prec alt).1 (fixedDigits x prec alt).2 (wholeFixed x prec alt).1 := by
  obtain ⟨⟨n, exact⟩, -⟩ := decimal_of_f64 h
  refine filled_cut (f := fun p => roundEven (x * 10 ^ p)) (by decide) (fun k => ?_) prec alt
  rw [(roundEven_more exact k).1, (roundEven_more exact k).2]

lemma filled_sci (h : f64Magnitude d = some x) (prec : Nat) (alt : Bool) :
    Filled (sciDigits x prec alt).1 (sciDigits x prec alt).2.1 (wholeSci x prec alt).1 ∧
      (sciDigits x prec alt).2.2 = (wholeSci x prec alt).2.2 := by
  unfold sciDigits wholeSci sciText
  dsimp only
  by_cases zero : x = 0
  · rw [if_pos zero, if_pos zero]
    refine ⟨filled_cut (f := fun _ => 0) (by decide) (fun k => ?_) prec alt, rfl⟩
    rw [Nat.zero_mul]
  · have nonneg : 0 ≤ x := by
      obtain ⟨⟨m, e⟩, -, rfl⟩ := Option.map_eq_some_iff.mp h
      exact mul_nonneg (Nat.cast_nonneg m) (two_zpow_pos e).le
    have pos : 0 < x := lt_of_le_of_ne nonneg (Ne.symm zero)
    obtain ⟨-, m, e, is, less⟩ := decimal_of_f64 h
    have less : m < 10 ^ (maxSignificantDigits + 1) :=
      less.trans (Nat.pow_lt_pow_right (by decide) (Nat.lt_succ_self _))
    obtain ⟨n, exact⟩ := exact_of_lt is pos less
    rw [if_neg zero, if_neg zero]
    dsimp only
    constructor
    · refine filled_cut (f := fun p => (roundDigits x p).1) (by decide) (fun k => ?_) prec alt
      rw [(roundDigits_more exact k).1, (roundDigits_more exact k).2]
    · rcases Nat.le_total prec maxSignificantDigits with le | le
      · rw [Nat.min_eq_left le]
      · obtain ⟨k, rfl⟩ := Nat.exists_eq_add_of_le le
        rw [Nat.min_eq_right le, (roundDigits_more exact k).1, (roundDigits_more exact k).2]

lemma Filled.text {body whole : List Byte} {trail : Nat} (h : Filled body trail whole)
    (sign : Option Byte) (suffix : List Byte) (spec : Spec) (zeroPad : Bool) :
    Pieces.text ⟨sign, [], 0, body, trail, suffix⟩ spec zeroPad
      = Pieces.text ⟨sign, [], 0, whole, 0, suffix⟩ spec zeroPad := by
  have len : Pieces.len ⟨sign, [], 0, body, trail, suffix⟩
      = Pieces.len ⟨sign, [], 0, whole, 0, suffix⟩ := by
    unfold Pieces.len
    dsimp only
    rw [h.zeros, List.length_append, List.length_replicate]
    generalize addUsize (addUsize (if sign.isSome then 1 else 0) [].length) 0 = front
    unfold addUsize
    omega
  unfold Pieces.text
  rw [len]
  dsimp only
  simp only [h.zeros, List.replicate_zero, List.append_assoc, List.nil_append]

lemma rdropWhile_zeros (body : List Byte) (trail : Nat) :
    (body ++ List.replicate trail zeroDigit).rdropWhile (· == zeroDigit)
      = body.rdropWhile (· == zeroDigit) := by
  induction trail with
  | zero => rw [List.replicate_zero, List.append_nil]
  | succ trail ih =>
    rw [List.replicate_succ', ← List.append_assoc, List.rdropWhile_concat_pos _ _ _ (by decide), ih]

/-- What the conversion `g` leaves of the digits. -/
lemma Filled.trimmed {body whole : List Byte} {trail : Nat} (h : Filled body trail whole) :
    trimDigits body = trimDigits whole := by
  rcases h.point with none | point
  · rw [h.zeros, none, List.replicate_zero, List.append_nil]
  · have inBody : body.contains pointByte = true := List.contains_iff_mem.mpr point
    have inWhole : whole.contains pointByte = true := by
      rw [h.zeros]
      exact List.contains_iff_mem.mpr (List.mem_append_left _ point)
    unfold trimDigits
    rw [if_pos inBody, if_pos inWhole, h.zeros, rdropWhile_zeros]

lemma finitePieces_whole (h : f64Magnitude d = some x) (sign : Option Byte) (conv : Byte) (upper : Bool)
    (spec : Spec) (zeroPad : Bool) :
    (finitePieces ⟨fixedDigits, sciDigits⟩ sign x conv upper spec).text spec zeroPad
      = (finitePieces ⟨wholeFixed, wholeSci⟩ sign x conv upper spec).text spec zeroPad := by
  have noTrail (prec : Nat) (alt : Bool) : (wholeFixed x prec alt).2 = 0 := rfl
  have noTrailSci (prec : Nat) (alt : Bool) : (wholeSci x prec alt).2.1 = 0 := rfl
  have fixed (prec : Nat) := filled_fixed h prec spec.alt
  have sci (prec : Nat) (alt : Bool) := filled_sci h prec alt
  unfold finitePieces
  dsimp only
  split
  next f =>
    rw [noTrail]
    exact (fixed _).text sign [] spec zeroPad
  next =>
    split
    next e =>
      rw [noTrailSci, (sci _ _).2]
      exact (sci _ _).1.text sign _ spec zeroPad
    next g =>
      rw [(sci _ false).2]
      split
      next alternate =>
        split
        next fixedStyle =>
          rw [noTrail]
          exact (fixed _).text sign [] spec zeroPad
        next sciStyle =>
          rw [noTrailSci, (sci _ spec.alt).2]
          exact (sci _ _).1.text sign _ spec zeroPad
      next trimmed =>
        split
        next fixedStyle =>
          dsimp only
          rw [(fixed _).trimmed]
        next sciStyle =>
          dsimp only
          rw [(sci _ spec.alt).1.trimmed, (sci _ spec.alt).2]

/-- The digits that `fmt_float` does not make are zeros: it prints what all the digits give, for every
double, conversion, precision and width, and whatever the sink has room for. -/
theorem fmtFloat_whole (k : Sink) (d : DWord) (conv : Byte) (spec : Spec) :
    fmtFloat k d conv spec = fmtFloatOf ⟨wholeFixed, wholeSci⟩ k d conv spec := by
  unfold fmtFloat fmtFloatOf
  dsimp only
  cases magnitude : f64Magnitude d with
  | none => rfl
  | some x =>
    dsimp only
    rw [emit_eq, emit_eq, finitePieces_whole magnitude]

end Qcvm.Stdlib

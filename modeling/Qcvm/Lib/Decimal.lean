import Mathlib.Data.Int.Log
import Mathlib.Data.Rat.Floor
import Qcvm.Lib.Binary

/-!
# Rounding to decimal digits

A non-negative number to a number of decimals, or to a number of significant digits, to the nearest, ties
to even. A number that has no further digits is not rounded, and the digits that are asked for beyond
its last one are zeros.
-/

namespace Qcvm.Lib

variable {x : ℚ} {n p k : ℕ}

/-- A number to the nearest integer, ties to even. -/
def roundEven (x : ℚ) : ℕ := roundHalf ⌊2 * x⌋₊ (decide ((⌊2 * x⌋₊ : ℚ) ≠ 2 * x))

/-- A number to `p` significant digits after the first one: the digits and the decimal exponent of the
first one. -/
def roundDigits (x : ℚ) (p : ℕ) : ℕ × ℤ :=
  let e := Int.log 10 x
  let n := roundEven (x * 10 ^ (p - e))
  if n = 10 ^ (p + 1) then (10 ^ p, e + 1) else (n, e)

/-- The integer is at least as near as any other, and even if another one is as near. -/
lemma roundEven_prefers (none : 0 ≤ x) (j : ℤ) :
    Prefers x (roundEven x) (roundEven x % 2 = 0) j := by
  have floor : (⌊2 * x⌋₊ : ℚ) ≤ 2 * x := Nat.floor_le (by linarith)
  have below : 2 * x < ⌊2 * x⌋₊ + 1 := Nat.lt_floor_add_one _
  have within : Within x ⌊2 * x⌋₊ (0 - 1) (decide ((⌊2 * x⌋₊ : ℚ) ≠ 2 * x)) := by
    refine ⟨?_, ?_, ?_⟩
    · norm_num
      linarith
    · norm_num
      linarith
    · rw [decide_eq_false_iff_not, not_not]
      norm_num
      constructor
      · intro h
        linarith
      · intro h
        linarith
  have prefers := within.prefers j
  rw [zpow_zero, mul_one, mul_one] at prefers
  exact prefers

lemma roundEven_natCast (n : ℕ) : roundEven n = n := by
  have twice : ⌊(2 * n : ℚ)⌋₊ = 2 * n := by
    exact_mod_cast Nat.floor_natCast (R := ℚ) (2 * n)
  unfold roundEven roundHalf
  rw [twice, if_neg (by omega)]
  omega

lemma ten_zpow_pos (e : ℤ) : (0 : ℚ) < 10 ^ e := zpow_pos (by norm_num) e

lemma ten_zpow_add (e f : ℤ) : (10 : ℚ) ^ (e + f) = 10 ^ e * 10 ^ f := zpow_add₀ (by norm_num) e f

/-- The decimals that are asked for beyond the last one are zeros. -/
lemma roundEven_more (exact : x * 10 ^ (p : ℤ) = n) (k : ℕ) :
    roundEven (x * 10 ^ p) = n ∧ roundEven (x * 10 ^ (p + k)) = n * 10 ^ k := by
  rw [zpow_natCast] at exact
  have more : x * 10 ^ (p + k) = (n * 10 ^ k : ℕ) := by
    rw [pow_add, ← mul_assoc, exact]
    push_cast
    rfl
  rw [exact, more]
  exact ⟨roundEven_natCast n, roundEven_natCast _⟩

/-- The digits that are asked for beyond the last one are zeros. -/
lemma roundDigits_more (exact : x * 10 ^ (p - Int.log 10 x) = n) (k : ℕ) :
    roundDigits x p = (n, Int.log 10 x) ∧ roundDigits x (p + k) = (n * 10 ^ k, Int.log 10 x) := by
  have upper : x < 10 ^ (Int.log 10 x + 1) := by
    exact_mod_cast Int.lt_zpow_succ_log_self (b := 10) (by decide) x
  have less : n < 10 ^ (p + 1) := by
    have scaled := mul_lt_mul_of_pos_right upper (ten_zpow_pos (p - Int.log 10 x))
    rw [exact, ← ten_zpow_add] at scaled
    have same : Int.log 10 x + 1 + (p - Int.log 10 x) = (p + 1 : ℕ) := by
      push_cast
      ring
    rw [same, zpow_natCast] at scaled
    exact_mod_cast scaled
  have more : x * 10 ^ (((p + k : ℕ) : ℤ) - Int.log 10 x) = (n * 10 ^ k : ℕ) := by
    have split : ((p + k : ℕ) : ℤ) - Int.log 10 x = p - Int.log 10 x + k := by
      push_cast
      ring
    rw [split, ten_zpow_add, ← mul_assoc, exact, zpow_natCast]
    push_cast
    rfl
  have lessMore : n * 10 ^ k < 10 ^ (p + k + 1) := by
    have scaled := Nat.mul_lt_mul_of_pos_right less (Nat.pow_pos (by decide : 0 < 10) (n := k))
    rwa [← pow_add, Nat.add_right_comm] at scaled
  unfold roundDigits
  dsimp only
  rw [exact, more, roundEven_natCast, roundEven_natCast]
  rw [if_neg less.ne, if_neg lessMore.ne]
  exact ⟨rfl, rfl⟩

/-- A number of `p + 1` digits or less has no further ones. -/
lemma exact_of_lt {m : ℕ} {e : ℤ} (is : x = m * 10 ^ e) (pos : 0 < x)
    (less : m < 10 ^ (p + 1)) : ∃ n : ℕ, x * 10 ^ (p - Int.log 10 x) = n := by
  have lower : (10 : ℚ) ^ Int.log 10 x ≤ x := by
    exact_mod_cast Int.zpow_log_le_self (b := 10) (by decide) pos
  have digits : Int.log 10 x < e + (p + 1) := by
    have reach : (10 : ℚ) ^ Int.log 10 x < 10 ^ (e + (p + 1)) := by
      refine lower.trans_lt ?_
      rw [is, ten_zpow_add, mul_comm]
      refine mul_lt_mul_of_pos_left ?_ (ten_zpow_pos e)
      exact_mod_cast less
    exact (zpow_lt_zpow_iff_right₀ (by norm_num)).mp reach
  obtain ⟨d, gap⟩ : ∃ d : ℕ, e + (p - Int.log 10 x) = d :=
    ⟨(e + (p - Int.log 10 x)).toNat, by omega⟩
  refine ⟨m * 10 ^ d, ?_⟩
  rw [is, mul_assoc, ← ten_zpow_add, ← is, gap, zpow_natCast]
  push_cast
  rfl

/-! ## Enough digits -/

/-- Rounding moves a number by half a unit at most. -/
lemma roundEven_near (none : 0 ≤ x) : |roundEven x - x| ≤ 1 / 2 := by
  have below := (roundEven_prefers none ⌊x⌋).le
  have above := (roundEven_prefers none (⌊x⌋ + 1)).le
  have floor : (⌊x⌋ : ℚ) ≤ x := Int.floor_le x
  have next : x < ⌊x⌋ + 1 := Int.lt_floor_add_one x
  rw [abs_of_nonpos (by linarith : (⌊x⌋ : ℚ) - x ≤ 0)] at below
  push_cast at above
  rw [abs_of_nonneg (by linarith : (0 : ℚ) ≤ ⌊x⌋ + 1 - x)] at above
  linarith

/-- A number to `p` decimals. -/
lemma roundEven_scaled (none : 0 ≤ x) (k : ℤ) :
    |roundEven (x * 10 ^ k) * (10 : ℚ) ^ (-k) - x| ≤ 1 / 2 * 10 ^ (-k) := by
  have unit := ten_zpow_pos (-k)
  have one : (10 : ℚ) ^ k * 10 ^ (-k) = 1 := by
    rw [← ten_zpow_add, add_neg_cancel, zpow_zero]
  have near := roundEven_near (mul_nonneg none (ten_zpow_pos k).le)
  have factor : roundEven (x * 10 ^ k) * (10 : ℚ) ^ (-k) - x =
      (roundEven (x * 10 ^ k) - x * 10 ^ k) * 10 ^ (-k) := by
    rw [sub_mul, mul_assoc x, one, mul_one]
  rw [factor, abs_mul, abs_of_pos unit]
  exact mul_le_mul_of_nonneg_right near unit.le

/-- The value of the digits that a number is rounded to. -/
lemma roundDigits_value (p : ℕ) :
    (roundDigits x p).1 * (10 : ℚ) ^ ((roundDigits x p).2 - p) =
      roundEven (x * 10 ^ (p - Int.log 10 x)) * 10 ^ (Int.log 10 x - p) := by
  unfold roundDigits
  dsimp only
  split
  next carry =>
    rw [carry, show Int.log 10 x + 1 - p = 1 + (Int.log 10 x - p) by ring, ten_zpow_add]
    push_cast
    rw [pow_succ]
    ring
  next => rfl

/-- The digits that a number is rounded to are half a unit of the last one away at most. -/
lemma roundDigits_near (none : 0 ≤ x) (p : ℕ) :
    |(roundDigits x p).1 * (10 : ℚ) ^ ((roundDigits x p).2 - p) - x| ≤
      1 / 2 * 10 ^ (Int.log 10 x - p) := by
  have near := roundEven_scaled none (p - Int.log 10 x)
  rw [neg_sub] at near
  rw [roundDigits_value]
  exact near

/-- A number that is rounded to a multiple of ten is rounded to it without the last digit as well. -/
lemma roundEven_tenth (none : 0 ≤ x) {n : ℕ} (h : roundEven (10 * x) = 10 * n) : roundEven x = n := by
  have far := roundEven_near (mul_nonneg (by norm_num : (0 : ℚ) ≤ 10) none)
  have near := roundEven_near none
  rw [h] at far
  push_cast at far
  rw [abs_le] at far near
  have below : (roundEven x : ℚ) < n + 1 := by linarith
  have above : (n : ℚ) < roundEven x + 1 := by linarith
  have below : roundEven x < n + 1 := by exact_mod_cast below
  have above : n < roundEven x + 1 := by exact_mod_cast above
  omega

/-- The decimals that show the digits a number is rounded to are as near. -/
lemma roundEven_digits (none : 0 ≤ x) {d : ℕ} (shown : (roundDigits x p).2 = p - d) :
    |roundEven (x * 10 ^ d) * (10 : ℚ) ^ (-d : ℤ) - x| ≤ 1 / 2 * 10 ^ (Int.log 10 x - p) := by
  unfold roundDigits at shown
  dsimp only at shown
  split at shown
  next carry =>
    have places : (p : ℤ) - Int.log 10 x = (d + 1 : ℕ) := by
      push_cast
      omega
    have near := roundEven_scaled none (d + 1 : ℕ)
    rw [places, zpow_natCast] at carry
    rw [zpow_natCast, carry] at near
    have tenth : roundEven (x * 10 ^ d) = 10 ^ p := by
      refine roundEven_tenth (mul_nonneg none (by positivity)) ?_
      rw [← pow_succ', ← carry, pow_succ]
      congr 1
      ring
    have unit : (10 : ℚ) ^ (-(d : ℤ)) = 10 * 10 ^ (-(d + 1 : ℕ) : ℤ) := by
      rw [← zpow_one_add₀ (by norm_num)]
      congr 1
      push_cast
      ring
    have scale : Int.log 10 x - p = -(d + 1 : ℕ) := by omega
    rw [tenth, scale, unit]
    push_cast at near ⊢
    rw [pow_succ, mul_assoc] at near
    exact near
  next =>
    have near := roundEven_scaled none d
    have scale : Int.log 10 x - p = -d := by omega
    rw [zpow_natCast] at near
    rw [scale]
    exact near

lemma roundDigits_exponent (x : ℚ) (p : ℕ) :
    (roundDigits x p).2 = Int.log 10 x ∨ (roundDigits x p).2 = Int.log 10 x + 1 := by
  unfold roundDigits
  dsimp only
  split
  next => exact .inr rfl
  next => exact .inl rfl

namespace BinaryFormat

variable {F : BinaryFormat} {m m' : ℕ} {e e' : ℤ}

/-- A number of a format is farther from the others than a unit of the precision that the format has. -/
lemma Canonical.gap (c : F.Canonical m e) (c' : F.Canonical m' e')
    (other : m' * (2 : ℚ) ^ e' ≠ m * 2 ^ e) :
    m * (2 : ℚ) ^ e ≤ |m' * (2 : ℚ) ^ e' - m * 2 ^ e| * 2 ^ F.precision := by
  have unit := two_zpow_pos e
  by_cases coarse : e ≤ e'
  · -- The other one is a multiple of the same unit.
    obtain ⟨k, rfl⟩ := Int.le.dest coarse
    have whole : m' * (2 : ℚ) ^ (e + k) - m * 2 ^ e = ((m' * 2 ^ k : ℕ) - (m : ℤ) : ℤ) * 2 ^ e := by
      rw [two_zpow_add_nat]
      push_cast
      ring
    have apart : ((m' * 2 ^ k : ℕ) - (m : ℤ) : ℤ) ≠ 0 := by
      intro zero
      rw [zero, Int.cast_zero, zero_mul, sub_eq_zero] at whole
      exact other whole
    have step : (1 : ℚ) ≤ |(((m' * 2 ^ k : ℕ) - (m : ℤ) : ℤ) : ℚ)| := by
      exact_mod_cast Int.one_le_abs apart
    have less : (m : ℚ) ≤ 2 ^ F.precision := by exact_mod_cast c.lt.le
    rw [whole, abs_mul, abs_of_pos unit]
    calc m * (2 : ℚ) ^ e
      _ ≤ 2 ^ F.precision * 2 ^ e := mul_le_mul_of_nonneg_right less unit.le
      _ = 1 * 2 ^ e * 2 ^ F.precision := by ring
      _ ≤ |(((m' * 2 ^ k : ℕ) - (m : ℤ) : ℤ) : ℚ)| * 2 ^ e * 2 ^ F.precision := by gcongr
  · -- A finer number is below: the significand is long, and that of the finer one is not longer.
    have long := c.leads.resolve_left (fun lowest => by have := c'.low_le; omega)
    have first : (2 : ℚ) ^ F.precision ≤ 2 * m := by exact_mod_cast long
    have short : (m' : ℚ) ≤ 2 ^ F.precision - 1 := by
      have : m' + 1 ≤ 2 ^ F.precision := c'.lt
      have cast : (m' : ℚ) + 1 ≤ 2 ^ F.precision := by exact_mod_cast this
      linarith
    have double := double_unit e (m : ℚ)
    have half := two_zpow_pos (e - 1)
    have fine : (2 : ℚ) ^ e' ≤ 2 ^ (e - 1) := two_zpow_le (by omega)
    have one : (1 : ℚ) ≤ 2 ^ F.precision := one_le_pow₀ (by norm_num)
    have finer : m' * (2 : ℚ) ^ e' ≤ (2 ^ F.precision - 1) * 2 ^ (e - 1) :=
      mul_le_mul short fine (two_zpow_pos e').le (by linarith)
    have apart := neg_abs_le (m' * (2 : ℚ) ^ e' - m * 2 ^ e)
    rw [double] at apart ⊢
    have more := mul_nonneg (mul_nonneg (sub_nonneg.mpr first) half.le) (sub_nonneg.mpr one)
    have far : (2 * m - 2 ^ F.precision + 1) * (2 : ℚ) ^ (e - 1) ≤
        |m' * (2 : ℚ) ^ e' - 2 * m * 2 ^ (e - 1)| := by linarith
    have scaled := mul_le_mul_of_nonneg_right far (zero_le_one.trans one)
    linarith

end BinaryFormat

end Qcvm.Lib

import Mathlib.Algebra.Order.Field.Power
import Qcvm.Lib.Binary
import Qcvm.Num

/-!
# Doubles as numbers

The numbers that the bit patterns of an `f64` stand for, and what it means that a double is the
nearest to an exact number. What the parser of hex floats relies on is stated of `u64 as f64` and of
`libm::ldexp` (`ScaleLaws`): exact results where there are such, and infinity for those that are too
large. `softLdexp` is an integer implementation with these properties.
-/

namespace Qcvm

open Lib

/-- The format of an `f64`. -/
def binary64 : BinaryFormat := ⟨53, -1074, 971, by decide⟩

/-- The significand and the exponent of a finite double. -/
def f64Parts (d : DWord) : Option (ℕ × ℤ) :=
  let field : ℕ := d.toNat / 2 ^ 52 % 2 ^ 11
  let fraction := d.toNat % 2 ^ 52
  if field = 2047 then none
  else if field = 0 then some (fraction, -1074)
  else some (2 ^ 52 + fraction, field - 1075)

/-- The number that a finite double stands for. -/
def f64Value (d : DWord) : Option ℚ :=
  (f64Parts d).map fun p => (if d.msb then -1 else 1) * (p.1 * 2 ^ p.2)

/-- `f64::INFINITY`. -/
def f64Infinity : DWord := 0x7FF0000000000000

/-- `0.0`. -/
def f64Zero : DWord := 0

/-- The double `d` is the nearest to the non-negative number `x`, ties to even: infinity from the
overflow bound on, else a finite double that is preferred to every finite double. -/
def F64Nearest (x : ℚ) (d : DWord) : Prop :=
  if binary64.overflow ≤ x then d = f64Infinity
  else ∃ v, f64Value d = some v ∧
    ∀ d' v', f64Value d' = some v' → Prefers x v (d.toNat % 2 = 0) v'

/-- The double of a number of the format. -/
def f64Encode (m : ℕ) (e : ℤ) : DWord := BitVec.ofNat 64 ((e + 1074).toNat * 2 ^ 52 + m)

section Parts

variable {d : DWord} {m : ℕ} {e : ℤ} {x v : ℚ}

/-- The canonical forms of doubles. -/
lemma canonical_iff : binary64.Canonical m e ↔
    -1074 ≤ e ∧ m < 2 ^ 53 ∧ (e = -1074 ∨ 2 ^ 52 ≤ m) := by
  constructor
  · rintro ⟨low, lt, leads⟩
    exact ⟨low, lt, leads.imp id fun long => by
      have : binary64.precision = 53 := rfl
      rw [this] at long
      omega⟩
  · rintro ⟨low, lt, leads⟩
    exact ⟨low, lt, leads.imp id fun long => by
      have : binary64.precision = 53 := rfl
      rw [this]
      omega⟩

/-- The parts are the one form of a number of the format; the last bit of the double is that of the
significand. -/
lemma f64Parts_canonical (h : f64Parts d = some (m, e)) :
    binary64.Canonical m e ∧ e ≤ 971 ∧ d.toNat % 2 = m % 2 := by
  rw [canonical_iff]
  unfold f64Parts at h
  dsimp only at h
  split_ifs at h with special tiny
  · cases h
    have := Nat.mod_lt d.toNat (Nat.two_pow_pos 52)
    omega
  · cases h
    have := Nat.mod_lt d.toNat (Nat.two_pow_pos 52)
    have := Nat.mod_lt (d.toNat / 2 ^ 52) (Nat.two_pow_pos 11)
    omega

/-- Every number of the format is a double. -/
lemma f64Parts_encode (c : binary64.Canonical m e) (high : e ≤ 971) :
    f64Parts (f64Encode m e) = some (m, e) ∧ (f64Encode m e).msb = false := by
  obtain ⟨low, lt, leads⟩ := canonical_iff.mp c
  obtain ⟨k, rfl⟩ : ∃ k : ℕ, e = k - 1074 := ⟨(e + 1074).toNat, by omega⟩
  have bits : (f64Encode m (k - 1074)).toNat = k * 2 ^ 52 + m := by
    rw [f64Encode, BitVec.toNat_ofNat, sub_add_cancel, Int.toNat_natCast, Nat.mod_eq_of_lt]
    omega
  constructor
  · -- The first bit of a long significand adds one to the exponent field.
    unfold f64Parts
    rw [bits]
    by_cases short : m < 2 ^ 52
    · obtain rfl : k = 0 := by omega
      rw [if_neg (by omega), if_pos (by omega)]
      simp only [Option.some.injEq, Prod.mk.injEq]
      omega
    · rw [if_neg (by omega), if_neg (by omega)]
      simp only [Option.some.injEq, Prod.mk.injEq]
      omega
  · rw [BitVec.msb_eq_decide, bits, decide_eq_false_iff_not]
    omega

/-- A canonical form is encoded as the double of its value. -/
lemma f64Value_encode (c : binary64.Canonical m e) (high : e ≤ 971) :
    f64Value (f64Encode m e) = some (m * (2 : ℚ) ^ e) := by
  obtain ⟨parts, sign⟩ := f64Parts_encode c high
  rw [f64Value, parts, sign, Option.map_some, if_neg Bool.false_ne_true, one_mul]

/-- A finite double that is not negative has the value of its parts. -/
lemma parts_of_f64Value (h : f64Value d = some v) (pos : 0 ≤ v) :
    ∃ (m : ℕ) (e : ℤ), f64Parts d = some (m, e) ∧ v = m * (2 : ℚ) ^ e := by
  obtain ⟨⟨m, e⟩, parts, rfl⟩ := Option.map_eq_some_iff.mp h
  refine ⟨m, e, parts, ?_⟩
  have none : (0 : ℚ) ≤ m * 2 ^ e := mul_nonneg (Nat.cast_nonneg m) (two_zpow_pos e).le
  dsimp only at pos ⊢
  split_ifs at pos ⊢ <;> linarith

/-- A finite double that is not negative is a number of the format. -/
lemma canonical_of_f64Value (h : f64Value d = some v) (pos : 0 ≤ v) :
    ∃ (m : ℕ) (e : ℤ), v = m * (2 : ℚ) ^ e ∧ binary64.Canonical m e ∧ e ≤ 971 ∧
      d.toNat % 2 = m % 2 := by
  obtain ⟨m, e, parts, value⟩ := parts_of_f64Value h pos
  exact ⟨m, e, value, f64Parts_canonical parts⟩

/-- A number of the format that `x` rounds to makes the doubles with its value the nearest. -/
lemma f64Nearest_of_rounds (pos : 0 ≤ x) (r : binary64.Rounds x m e)
    (value : f64Value d = some (m * (2 : ℚ) ^ e)) : F64Nearest x d := by
  have none : (0 : ℚ) ≤ m * 2 ^ e := mul_nonneg (Nat.cast_nonneg m) (two_zpow_pos e).le
  obtain ⟨n, k, same, canonical, _, parity⟩ := canonical_of_f64Value value none
  rw [F64Nearest, if_neg (not_le.mpr r.finite)]
  refine ⟨_, value, fun d' v' value' => ?_⟩
  rw [parity, ← r.canonical.unique canonical same]
  rcases le_or_gt 0 v' with plus | minus
  · obtain ⟨m', e', rfl, canonical', high', _⟩ := canonical_of_f64Value value' plus
    exact r.nearest m' e' canonical' high'
  · -- A negative double is farther than zero.
    have zero := (r.nearest 0 (-1074) (canonical_iff.mpr (by norm_num)) (by decide)).le
    rw [Nat.cast_zero, zero_mul, zero_sub, abs_neg, abs_of_nonneg pos] at zero
    have far : |v' - x| = x - v' := by rw [abs_sub_comm, abs_of_nonneg (by linarith)]
    left
    rw [far]
    linarith

/-- Past the largest double infinity is the nearest. -/
lemma f64Nearest_infinity (h : binary64.overflow ≤ x) : F64Nearest x f64Infinity := by
  rw [F64Nearest, if_pos h]

/-- Numbers overflow at the latest at 2^1024. -/
lemma overflow_le : binary64.overflow ≤ 2 ^ (1024 : ℤ) := by
  have top : (2 : ℚ) ^ (1024 : ℤ) = 2 ^ 54 * 2 ^ (970 : ℤ) := by
    rw [← two_zpow_add_nat]
    norm_num
  rw [top, BinaryFormat.overflow, show binary64.high - 1 = 970 from rfl]
  exact mul_le_mul_of_nonneg_right (by rw [show binary64.precision = 53 from rfl]; norm_num)
    (two_zpow_pos _).le

/-- Less than half of the least positive number. -/
lemma f64Nearest_zero (pos : 0 ≤ x) (h : x < 2 ^ (-1075 : ℤ)) : F64Nearest x f64Zero := by
  have none : Within x 0 (-1074 - 1) (decide (x ≠ 0)) := by
    refine ⟨by rwa [Nat.cast_zero, zero_mul], by norm_num at h ⊢; exact h, ?_⟩
    rw [Nat.cast_zero, zero_mul, decide_eq_false_iff_not, not_not]
  have below : x < 2 ^ binary64.precision * (2 : ℚ) ^ (-1074 : ℤ) :=
    h.trans_le ((two_zpow_le (by norm_num)).trans
      (le_mul_of_one_le_left (two_zpow_pos _).le (one_le_pow₀ (by norm_num))))
  rcases BinaryFormat.rounds_of_within none (show binary64.low ≤ -1074 from le_rfl)
    (show -1074 ≤ binary64.high by decide) (Or.inl rfl) below with ⟨_, _, no⟩ | ⟨m, e, r, zero⟩
  · exact absurd no (by decide)
  · refine f64Nearest_of_rounds pos r ?_
    rw [zero]
    have encoded := f64Value_encode (m := 0) (e := -1074) (canonical_iff.mpr (by norm_num))
      (by norm_num)
    rw [Nat.cast_zero, zero_mul] at encoded
    rw [show roundHalf 0 (decide (x ≠ 0)) = 0 from rfl, Nat.cast_zero, zero_mul, ← encoded]
    rfl

end Parts

/-! ## Scaling by a power of two -/

/-- A number that some double stands for. -/
def IsF64 (v : ℚ) : Prop := ∃ d, f64Value d = some v

/-- A canonical form in range is the value of a double. -/
lemma isF64_of_canonical {m : ℕ} {e : ℤ} (c : binary64.Canonical m e) (high : e ≤ 971) :
    IsF64 (m * (2 : ℚ) ^ e) :=
  ⟨_, f64Value_encode c high⟩

/-- Numbers of up to 53 bits are values of doubles. -/
lemma isF64_nat {n : ℕ} (h : n ≤ 2 ^ 53) : IsF64 n := by
  rcases h.lt_or_eq with short | full
  · obtain ⟨m, e, canonical, le, same⟩ :=
      @BinaryFormat.exists_canonical n binary64 1074 short
    have zero : binary64.low + (1074 : ℕ) = 0 := rfl
    rw [zero] at le same
    rw [zpow_zero, mul_one] at same
    rw [← same]
    exact isF64_of_canonical canonical (le.trans (by norm_num))
  · have canonical : binary64.Canonical (2 ^ 52) 1 := canonical_iff.mpr (by norm_num)
    have double := isF64_of_canonical canonical (by norm_num)
    rw [full]
    norm_num at double ⊢
    exact double

/-- The values of doubles are bounded. -/
lemma lt_of_isF64 {v : ℚ} (h : IsF64 v) : v < 2 ^ (53 : ℕ) * (2 : ℚ) ^ (971 : ℤ) := by
  obtain ⟨d, value⟩ := h
  rcases lt_or_ge v 0 with minus | plus
  · exact minus.trans (by positivity)
  · obtain ⟨m, e, rfl, canonical, high, _⟩ := canonical_of_f64Value value plus
    exact mul_lt_mul (by exact_mod_cast canonical.lt) (two_zpow_le high) (two_zpow_pos e)
      (by positivity)

/-- What is known of `u64 as f64` for at most 54 bits, and of `ldexp` (with an `i32` exponent) for
numbers that are not negative: the exact result where there is one, infinity when the result is
larger than every finite double. -/
structure ScaleLaws (F : FloatOps) (ldexp : DWord → ℤ → DWord) : Prop where
  ofU64_exact (n : DWord) : n.toNat < 2 ^ 54 → IsF64 n.toNat → f64Value (F.ofU64D n) = some n.toNat
  ldexp_exact (d : DWord) (v : ℚ) (k : ℤ) : f64Value d = some v → 0 ≤ v →
    -2147483648 ≤ k → k ≤ 2147483647 → IsF64 (v * 2 ^ k) →
      f64Value (ldexp d k) = some (v * 2 ^ k)
  ldexp_overflow (d : DWord) (v : ℚ) (k : ℤ) : f64Value d = some v → 0 ≤ v →
    -2147483648 ≤ k → k ≤ 2147483647 → (∀ v', IsF64 v' → v' < v * 2 ^ k) →
      ldexp d k = f64Infinity

/-- The double of `m * 2 ^ e`, for a short significand or an exact result. -/
def f64Scaled (m : ℕ) (e : ℤ) : DWord :=
  let lead := e + m.log2
  let unit := max (lead - 52) (-1074)
  if m = 0 then f64Zero
  else if 1023 < lead then f64Infinity
  else f64Encode (if unit ≤ e then m * 2 ^ (e - unit).toNat else m / 2 ^ (unit - e).toNat) unit

/-- `ldexp` in integers. -/
def softLdexp (d : DWord) (k : ℤ) : DWord :=
  match f64Parts d with
  | some (m, e) => f64Scaled m (e + k)
  | none => d

/-- Float operations with the conversion of integers. -/
def softOps : FloatOps := { FloatOps.onZero with ofU64D := fun n => f64Scaled n.toNat 0 }

section Scale

variable {m n : ℕ} {e k : ℤ} {v : ℚ}

/-- The leading bits of one number have one weight. -/
lemma lead_unique (some : m ≠ 0) (some' : n ≠ 0) (same : m * (2 : ℚ) ^ e = n * 2 ^ k) :
    e + m.log2 = k + n.log2 := by
  obtain ⟨low, high⟩ := (within_self (m := m) (e := e)).lead some
  obtain ⟨low', high'⟩ := (within_self (m := n) (e := k)).lead some'
  rw [same] at low high
  have up := (zpow_lt_zpow_iff_right₀ (by norm_num : (1 : ℚ) < 2)).mp (low.trans_lt high')
  have down := (zpow_lt_zpow_iff_right₀ (by norm_num : (1 : ℚ) < 2)).mp (low'.trans_lt high)
  omega

/-- An exact result is found. -/
lemma f64Scaled_exact (h : IsF64 (m * (2 : ℚ) ^ e)) :
    f64Value (f64Scaled m e) = some (m * (2 : ℚ) ^ e) := by
  obtain ⟨d, value⟩ := h
  have pos : (0 : ℚ) ≤ m * 2 ^ e := mul_nonneg (Nat.cast_nonneg m) (two_zpow_pos e).le
  obtain ⟨n, k, same, canonical, high, _⟩ := canonical_of_f64Value value pos
  unfold f64Scaled
  dsimp only
  by_cases zero : m = 0
  · rw [if_pos zero, zero, Nat.cast_zero, zero_mul]
    have encoded := f64Value_encode (m := 0) (e := -1074) (canonical_iff.mpr (by norm_num))
      (by norm_num)
    rwa [Nat.cast_zero, zero_mul] at encoded
  · obtain ⟨low, lt, leads⟩ := canonical_iff.mp canonical
    have some' : n ≠ 0 := by
      rintro rfl
      rw [Nat.cast_zero, zero_mul, mul_eq_zero] at same
      exact same.elim (fun none => zero (by exact_mod_cast none)) (two_zpow_pos e).ne'
    have lead := lead_unique zero some' same
    have bits : n.log2 < 53 := (Nat.log2_lt some').mpr lt
    have unit : max (e + m.log2 - 52) (-1074) = k := by
      rcases leads with lowest | long
      · omega
      · have first : 52 ≤ n.log2 := (Nat.le_log2 some').mpr long
        omega
    rw [if_neg zero, if_neg (by omega), unit]
    have significand :
        (if k ≤ e then m * 2 ^ (e - k).toNat else m / 2 ^ (k - e).toNat) = n := by
      split
      next coarse =>
        obtain ⟨j, rfl⟩ := Int.le.dest coarse
        rw [two_zpow_add_nat, ← mul_assoc] at same
        rw [add_sub_cancel_left, Int.toNat_natCast]
        exact_mod_cast mul_right_cancel₀ (two_zpow_pos k).ne' same
      next fine =>
        obtain ⟨j, rfl⟩ := Int.le.dest (not_le.mp fine).le
        rw [two_zpow_add_nat, ← mul_assoc] at same
        have whole : m = n * 2 ^ j := by
          exact_mod_cast mul_right_cancel₀ (two_zpow_pos e).ne' same
        rw [add_sub_cancel_left, Int.toNat_natCast, whole,
          Nat.mul_div_cancel _ (Nat.two_pow_pos j)]
    rw [significand, same]
    exact f64Value_encode canonical high

/-- A short significand leads to infinity beyond all doubles. -/
lemma f64Scaled_overflow (short : m < 2 ^ 53) (h : ∀ v', IsF64 v' → v' < m * (2 : ℚ) ^ e) :
    f64Scaled m e = f64Infinity := by
  have canonical : binary64.Canonical (2 ^ 53 - 1) 971 := canonical_iff.mpr (by norm_num)
  have largest := h _ ⟨_, f64Value_encode canonical le_rfl⟩
  have some : m ≠ 0 := by
    rintro rfl
    rw [Nat.cast_zero, zero_mul] at largest
    exact absurd largest (not_lt.mpr (by positivity))
  unfold f64Scaled
  dsimp only
  rw [if_neg some, if_pos]
  by_contra! inside
  -- The significand moved to the highest place.
  have bits : m.log2 < 53 := (Nat.log2_lt some).mpr short
  obtain ⟨j, full⟩ : ∃ j, j + m.log2 = 52 := ⟨52 - m.log2, by omega⟩
  have fits : m * 2 ^ j ≤ 2 ^ 53 - 1 := by
    have below : m * 2 ^ j < 2 ^ (m.log2 + 1) * 2 ^ j :=
      Nat.mul_lt_mul_of_pos_right Nat.lt_log2_self (Nat.two_pow_pos j)
    rw [← Nat.pow_add, show m.log2 + 1 + j = 53 by omega] at below
    omega
  have value : (m : ℚ) * 2 ^ e = (m * 2 ^ j : ℕ) * 2 ^ (e - j) := by
    have moved := two_zpow_add_nat (e - j) j
    rw [sub_add_cancel] at moved
    rw [moved, Nat.cast_mul, Nat.cast_pow, Nat.cast_ofNat]
    ring
  have below : (m : ℚ) * 2 ^ e ≤ (2 ^ 53 - 1 : ℕ) * 2 ^ (971 : ℤ) := by
    rw [value]
    exact mul_le_mul (by exact_mod_cast fits) (two_zpow_le (by omega)) (two_zpow_pos _).le
      (Nat.cast_nonneg _)
  exact absurd largest (not_lt.mpr below)

/-- The arithmetic of the examples satisfies the laws. -/
lemma scaleLaws_soft : ScaleLaws softOps softLdexp where
  ofU64_exact n _ exact := by
    have scaled := f64Scaled_exact (m := n.toNat) (e := 0) (by rwa [zpow_zero, mul_one])
    rwa [zpow_zero, mul_one] at scaled
  ldexp_exact d v k value pos _ _ exact := by
    obtain ⟨m, e, parts, rfl⟩ := parts_of_f64Value value pos
    rw [mul_assoc, ← zpow_add₀ (by norm_num)] at exact ⊢
    rw [softLdexp, parts]
    exact f64Scaled_exact exact
  ldexp_overflow d v k value pos _ _ large := by
    obtain ⟨m, e, parts, rfl⟩ := parts_of_f64Value value pos
    rw [mul_assoc, ← zpow_add₀ (by norm_num)] at large
    rw [softLdexp, parts]
    exact f64Scaled_overflow (f64Parts_canonical parts).1.lt large

end Scale

end Qcvm

import Mathlib.Algebra.Order.Field.Power
import Mathlib.Data.Rat.Cast.Order
import Mathlib.Tactic.Linarith
import Mathlib.Tactic.Positivity
import Mathlib.Tactic.Ring

/-!
# Rounding to a binary floating-point format

The numbers of a format are `m * 2 ^ e` with a significand of `precision` bits and an exponent of at
least `low`. A positive number is held exactly or as its leading bits together with a bit that says
whether anything follows them (`Within`), and that much is enough to round it: to half a unit of the
last place, with the bit for the rest, a number is rounded to the nearest number of the format, ties
to even (`nearest_of_within`).
-/

namespace Qcvm.Lib

/-- A binary format: the number of bits of a significand and the range of the exponents. -/
structure BinaryFormat where
  precision : ℕ
  low : ℤ
  high : ℤ
  two_le : 2 ≤ precision

/-! ## Leading bits -/

/-- `x` starts with the bits of `m`, with the weight `2 ^ e`; `rest` tells whether more follow. -/
structure Within (x : ℚ) (m : ℕ) (e : ℤ) (rest : Bool) : Prop where
  le : m * (2 : ℚ) ^ e ≤ x
  lt : x < (m + 1) * (2 : ℚ) ^ e
  exact_iff : rest = false ↔ x = m * (2 : ℚ) ^ e

variable {x : ℚ} {m n k : ℕ} {e e' : ℤ} {rest : Bool}

/-- Powers of two are positive. -/
lemma two_zpow_pos (e : ℤ) : (0 : ℚ) < 2 ^ e := zpow_pos (by norm_num) e

/-- A power of two with a larger exponent. -/
lemma two_zpow_add_nat (e : ℤ) (k : ℕ) : (2 : ℚ) ^ (e + k) = 2 ^ k * 2 ^ e := by
  rw [zpow_add₀ (by norm_num), zpow_natCast, mul_comm]

/-- A number of units is twice as many half units. -/
lemma double_unit (e : ℤ) (a : ℚ) : a * (2 : ℚ) ^ e = 2 * a * 2 ^ (e - 1) := by
  have step := two_zpow_add_nat (e - 1) 1
  rw [Nat.cast_one, sub_add_cancel] at step
  rw [step]
  ring

/-- Powers of two grow with the exponent. -/
lemma two_zpow_le (h : e ≤ e') : (2 : ℚ) ^ e ≤ 2 ^ e' := zpow_le_zpow_right₀ (by norm_num) h

/-- A number is its own bits. -/
lemma within_self : Within (m * (2 : ℚ) ^ e) m e false where
  le := le_rfl
  lt := by
    have pos := two_zpow_pos e
    linarith
  exact_iff := ⟨fun _ => rfl, fun _ => rfl⟩

/-- More bits of a number that is held exactly. -/
lemma Within.widen (w : Within x m e false) (k : ℕ) : Within x (m * 2 ^ k) (e - k) false := by
  have same : x = (m * 2 ^ k : ℕ) * (2 : ℚ) ^ (e - k) := by
    rw [w.exact_iff.mp rfl, ← sub_add_cancel e (k : ℤ), two_zpow_add_nat, sub_add_cancel]
    push_cast
    ring
  rw [same]
  exact within_self

/-- Fewer bits: those that are dropped go into the rest. -/
lemma Within.shift (w : Within x m e rest) (k : ℕ) :
    Within x (m / 2 ^ k) (e + k) (rest || decide (m % 2 ^ k ≠ 0)) := by
  have pos := two_zpow_pos e
  have parts : (m : ℚ) = 2 ^ k * (m / 2 ^ k : ℕ) + (m % 2 ^ k : ℕ) := by
    exact_mod_cast (Nat.div_add_mod m (2 ^ k)).symm
  have less : ((m % 2 ^ k : ℕ) : ℚ) + 1 ≤ 2 ^ k := by
    exact_mod_cast Nat.mod_lt m (Nat.two_pow_pos k)
  have none : (0 : ℚ) ≤ (m % 2 ^ k : ℕ) := Nat.cast_nonneg _
  have lower := w.le
  have upper := w.lt
  rw [parts] at lower upper
  have scaled : ((m / 2 ^ k : ℕ) : ℚ) * 2 ^ (e + k) = 2 ^ k * (m / 2 ^ k : ℕ) * 2 ^ e := by
    rw [two_zpow_add_nat]
    ring
  refine ⟨?_, ?_, ?_⟩
  · rw [scaled]
    nlinarith only [lower, none, pos]
  · rw [add_mul, scaled, one_mul, two_zpow_add_nat]
    nlinarith only [upper, less, pos]
  · rw [scaled, Bool.or_eq_false_iff, w.exact_iff, decide_eq_false_iff_not, not_not]
    constructor
    · rintro ⟨same, zero⟩
      rw [same, parts, zero, Nat.cast_zero, add_zero]
    · intro same
      have zero : ((m % 2 ^ k : ℕ) : ℚ) = 0 := by
        nlinarith only [lower, none, pos, same]
      rw [zero, add_zero] at parts
      rw [parts]
      exact ⟨same, by exact_mod_cast zero⟩

/-- A number below a multiple of the unit has fewer units. -/
lemma Within.lt_of_lt (w : Within x m e rest) (h : x < k * (2 : ℚ) ^ e) : m < k := by
  have below := w.le.trans_lt h
  exact_mod_cast lt_of_mul_lt_mul_right below (two_zpow_pos e).le

/-- A number from a multiple of the unit on has at least as many units. -/
lemma Within.le_of_le (w : Within x m e rest) (h : k * (2 : ℚ) ^ e ≤ x) : k ≤ m := by
  have below := lt_of_mul_lt_mul_right (h.trans_lt w.lt) (two_zpow_pos e).le
  exact Nat.lt_succ_iff.mp (by exact_mod_cast below)

/-- The weight of the first bit. -/
lemma Within.lead (w : Within x m e rest) (some : m ≠ 0) :
    (2 : ℚ) ^ (e + m.log2) ≤ x ∧ x < 2 ^ (e + m.log2 + 1) := by
  have pos := (two_zpow_pos e).le
  have low : ((2 ^ m.log2 : ℕ) : ℚ) ≤ m := by exact_mod_cast Nat.log2_self_le some
  have high : (m : ℚ) + 1 ≤ (2 ^ (m.log2 + 1) : ℕ) := by exact_mod_cast Nat.lt_log2_self
  constructor
  · rw [two_zpow_add_nat]
    exact (mul_le_mul_of_nonneg_right (by exact_mod_cast low) pos).trans w.le
  · refine (w.lt.trans_le (mul_le_mul_of_nonneg_right high pos)).trans_eq ?_
    rw [add_assoc, ← Nat.cast_succ, two_zpow_add_nat]
    push_cast
    rfl

/-! ## Rounding to a multiple -/

/-- A number of half units, and whether anything follows, in units: to the nearest, ties to even. -/
def roundHalf (n : ℕ) (rest : Bool) : ℕ :=
  n / 2 + if n % 2 = 1 ∧ (rest ∨ n / 2 % 2 = 1) then 1 else 0

/-- `z` is at least as near to `x` as `z'` is, and nearer when it is another number that is not
even. -/
def Prefers (x z : ℚ) (even : Prop) (z' : ℚ) : Prop :=
  |z - x| < |z' - x| ∨ |z - x| = |z' - x| ∧ (z' = z ∨ even)

/-- What is preferred is no farther away. -/
lemma Prefers.le {z z' : ℚ} {even : Prop} (h : Prefers x z even z') : |z - x| ≤ |z' - x| := by
  rcases h with near | ⟨same, _⟩
  · exact near.le
  · exact same.le

/-- The multiple of two units that a number is rounded to is preferred to every other. -/
lemma prefers_half {u r : ℚ} (pos : 0 < u) (none : 0 ≤ r) (less : r < u)
    (exact_iff : rest = false ↔ r = 0) (j : ℤ) :
    Prefers (n * u + r) (roundHalf n rest * (2 * u)) (roundHalf n rest % 2 = 0) (j * (2 * u)) := by
  have scale {a b : ℤ} (h : a ≤ b) : (a : ℚ) * (2 * u) ≤ b * (2 * u) :=
    mul_le_mul_of_nonneg_right (by exact_mod_cast h) (by linarith)
  obtain ⟨i, parity⟩ := Nat.even_or_odd' n
  rcases parity with even | odd
  · -- Less than half a multiple is left: round down.
    have down : roundHalf n rest = i := by
      unfold roundHalf
      rw [if_neg (by omega)]
      omega
    have dist : |(i : ℚ) * (2 * u) - ((2 * i : ℕ) * u + r)| = r := by
      rw [abs_sub_comm, abs_of_nonneg] <;> push_cast <;> linarith
    unfold Prefers
    rw [down, even, dist]
    rcases lt_trichotomy j i with before | same | behind
    · have far := scale (show j ≤ i - 1 by omega)
      push_cast at far ⊢
      exact Or.inl (lt_abs.mpr (Or.inr (by linarith)))
    · rw [same, Int.cast_natCast, dist]
      exact Or.inr ⟨rfl, Or.inl rfl⟩
    · have far := scale (show (i : ℤ) + 1 ≤ j by omega)
      push_cast at far ⊢
      exact Or.inl (lt_abs.mpr (Or.inl (by linarith)))
  · by_cases up : rest ∨ i % 2 = 1
    · -- More than half a multiple is left, or exactly half of it above an odd one: round up.
      have raised : roundHalf n rest = i + 1 := by
        have half : n / 2 = i := by omega
        unfold roundHalf
        rw [half, if_pos ⟨by omega, up⟩]
      have dist : |((i + 1 : ℕ) : ℚ) * (2 * u) - ((2 * i + 1 : ℕ) * u + r)| = u - r := by
        rw [abs_of_nonneg] <;> push_cast <;> linarith
      unfold Prefers
      rw [raised, odd, dist]
      rcases lt_trichotomy j (i + 1) with before | same | behind
      · have far := scale (show j ≤ i by omega)
        push_cast at far ⊢
        have reach : u + r ≤ |(j : ℚ) * (2 * u) - ((2 * i + 1) * u + r)| :=
          le_abs.mpr (Or.inr (by linarith))
        by_cases exact_half : r = 0
        · have tie : i % 2 = 1 := up.resolve_left (by rw [exact_iff.mpr exact_half]; exact nofun)
          rcases lt_or_eq_of_le reach with near | equal
          · exact Or.inl (by linarith)
          · exact Or.inr ⟨by linarith, Or.inr (by omega)⟩
        · have some := lt_of_le_of_ne none (Ne.symm exact_half)
          exact Or.inl (by linarith)
      · rw [same]
        exact Or.inr ⟨by push_cast at dist ⊢; exact dist.symm, Or.inl (by push_cast; rfl)⟩
      · have far := scale (show (i : ℤ) + 2 ≤ j by omega)
        push_cast at far ⊢
        exact Or.inl (lt_abs.mpr (Or.inl (by linarith)))
    · -- Exactly half of a multiple is left above an even one: round down.
      obtain ⟨exactly, even⟩ := not_or.mp up
      have zero : r = 0 := exact_iff.mp (Bool.eq_false_iff.mpr exactly)
      have down : roundHalf n rest = i := by
        have half : n / 2 = i := by omega
        unfold roundHalf
        rw [half, if_neg fun raised => up raised.2]
        rfl
      have dist : |(i : ℚ) * (2 * u) - ((2 * i + 1 : ℕ) * u + 0)| = u := by
        rw [abs_sub_comm, abs_of_nonneg] <;> push_cast <;> linarith
      unfold Prefers
      rw [down, odd, zero, dist]
      have reach : u ≤ |(j : ℚ) * (2 * u) - ((2 * i + 1 : ℕ) * u + 0)| := by
        push_cast
        rcases le_or_gt j i with before | behind
        · have far := scale before
          push_cast at far
          exact le_abs.mpr (Or.inr (by linarith))
        · have far := scale (show (i : ℤ) + 1 ≤ j by omega)
          push_cast at far
          exact le_abs.mpr (Or.inl (by linarith))
      rcases lt_or_eq_of_le reach with near | equal
      · exact Or.inl near
      · exact Or.inr ⟨equal, Or.inr (by omega)⟩

/-- Half units and the rest round to the nearest multiple of the unit. -/
lemma Within.prefers (w : Within x n (e - 1) rest) (j : ℤ) :
    Prefers x (roundHalf n rest * (2 : ℚ) ^ e) (roundHalf n rest % 2 = 0) (j * (2 : ℚ) ^ e) := by
  have pos := two_zpow_pos (e - 1)
  have double : (2 : ℚ) ^ e = 2 * 2 ^ (e - 1) := by
    have twice := double_unit e 1
    rwa [one_mul, mul_one] at twice
  have lower := w.le
  have upper := w.lt
  have exact_iff : rest = false ↔ x - n * 2 ^ (e - 1) = 0 := by rw [w.exact_iff, sub_eq_zero]
  have half := prefers_half (u := (2 : ℚ) ^ (e - 1)) (r := x - n * 2 ^ (e - 1)) (n := n) pos
    (by linarith) (by linarith) exact_iff j
  rwa [add_sub_cancel, ← double] at half

/-- Rounding does not pass a number above. -/
lemma roundHalf_le (h : n < 2 * k) : roundHalf n rest ≤ k := by
  unfold roundHalf
  split <;> omega

/-- Rounding does not fall below a number below. -/
lemma le_roundHalf (h : 2 * k ≤ n) : k ≤ roundHalf n rest := by
  unfold roundHalf
  omega

/-- Rounding gives an even number from one half below it on. -/
lemma roundHalf_eq_iff (h : n < 2 * k) (even : k % 2 = 0) :
    roundHalf n rest = k ↔ 2 * k - 1 ≤ n := by
  unfold roundHalf
  split <;> omega

/-! ## Rounding to a format -/

namespace BinaryFormat

variable {F : BinaryFormat}

/-- The one form that a format has for a number: the exponent is the lowest, or the first bit of the
significand is set. -/
structure Canonical (F : BinaryFormat) (m : ℕ) (e : ℤ) : Prop where
  low_le : F.low ≤ e
  lt : m < 2 ^ F.precision
  leads : e = F.low ∨ 2 ^ F.precision ≤ 2 * m

/-- From here on a number rounds to infinity: half a unit behind the largest number. -/
def overflow (F : BinaryFormat) : ℚ := (2 ^ (F.precision + 1) - 1) * 2 ^ (F.high - 1)

/-- The number `m * 2 ^ e` of the format is the nearest to `x`, ties to even. -/
structure Rounds (F : BinaryFormat) (x : ℚ) (m : ℕ) (e : ℤ) : Prop where
  canonical : F.Canonical m e
  le_high : e ≤ F.high
  finite : x < F.overflow
  nearest : ∀ m' e', F.Canonical m' e' → e' ≤ F.high →
    Prefers x (m * 2 ^ e) (m % 2 = 0) (m' * 2 ^ e')

/-- A canonical form has the smallest exponent. -/
lemma Canonical.exponent_le {m' : ℕ} (c : F.Canonical m e) (c' : F.Canonical m' e')
    (same : m * (2 : ℚ) ^ e = m' * 2 ^ e') : e ≤ e' := by
  by_contra! less
  -- The larger exponent is not the lowest, so that its significand is the longest.
  have long := c.leads.resolve_left (fun lowest => by have := c'.low_le; omega)
  obtain ⟨k, rfl⟩ : ∃ k : ℕ, e = e' + (k + 1 : ℕ) := ⟨(e - e' - 1).toNat, by omega⟩
  rw [two_zpow_add_nat, ← mul_assoc] at same
  have equal : m * 2 ^ (k + 1) = m' := by
    exact_mod_cast mul_right_cancel₀ (two_zpow_pos e').ne' same
  have twice : 2 * m ≤ m * 2 ^ (k + 1) := by
    rw [pow_succ, mul_comm 2 m, ← mul_assoc, mul_right_comm]
    exact Nat.le_mul_of_pos_right _ (Nat.two_pow_pos k)
  exact absurd c'.lt (by omega)

/-- Two forms of one number are the same. -/
lemma Canonical.unique {m' : ℕ} (c : F.Canonical m e) (c' : F.Canonical m' e')
    (same : m * (2 : ℚ) ^ e = m' * 2 ^ e') : m = m' := by
  have exponents : e = e' := le_antisymm (c.exponent_le c' same) (c'.exponent_le c same.symm)
  rw [exponents] at same
  exact_mod_cast mul_right_cancel₀ (two_zpow_pos e').ne' same

/-- Every short significand has a form in the format. -/
lemma exists_canonical (k : ℕ) (lt : m < 2 ^ F.precision) :
    ∃ (m' : ℕ) (e' : ℤ), F.Canonical m' e' ∧ e' ≤ F.low + k ∧
      m' * (2 : ℚ) ^ e' = m * 2 ^ (F.low + k) := by
  induction k generalizing m with
  | zero => exact ⟨m, F.low, ⟨le_rfl, lt, Or.inl rfl⟩, by simp, by simp⟩
  | succ k ih =>
    by_cases long : 2 ^ F.precision ≤ 2 * m
    · exact ⟨m, _, ⟨by omega, lt, Or.inr long⟩, le_rfl, rfl⟩
    · obtain ⟨m', e', canonical, le, same⟩ := ih (not_le.mp long)
      refine ⟨m', e', canonical, le.trans (by push_cast; omega), ?_⟩
      rw [same, double_unit (F.low + (k + 1 : ℕ)),
        show F.low + (k + 1 : ℕ) - 1 = F.low + k by omega]
      push_cast
      rfl

/-- The rounded half units, at the exponent of the leading bit or the lowest, are the nearest of all
numbers of the format. -/
lemma nearest_of_within (w : Within x n (e - 1) rest)
    (leads : e = F.low ∨ 2 ^ F.precision * (2 : ℚ) ^ (e - 1) ≤ x) {m' : ℕ}
    (c : F.Canonical m' e') :
    Prefers x (roundHalf n rest * 2 ^ e) (roundHalf n rest % 2 = 0) (m' * 2 ^ e') := by
  by_cases coarse : e ≤ e'
  · obtain ⟨k, rfl⟩ := Int.le.dest coarse
    have near := w.prefers ((m' * 2 ^ k : ℕ) : ℤ)
    rw [two_zpow_add_nat, ← mul_assoc]
    push_cast at near ⊢
    exact near
  · -- A finer number is below the least number with the leading bit of `x`.
    have fine : e' ≤ e - 1 := by omega
    have large := leads.resolve_left (fun lowest => by have := c.low_le; omega)
    obtain ⟨p, whole⟩ : ∃ p, F.precision = p + 1 := ⟨F.precision - 1, by have := F.two_le; omega⟩
    have least : (2 : ℚ) ^ F.precision * 2 ^ (e - 1) = ((2 ^ p : ℕ) : ℤ) * 2 ^ e := by
      rw [double_unit e, whole, pow_succ]
      push_cast
      ring
    have small : m' * (2 : ℚ) ^ e' < 2 ^ F.precision * 2 ^ (e - 1) :=
      calc m' * (2 : ℚ) ^ e'
        _ < 2 ^ F.precision * 2 ^ e' :=
          mul_lt_mul_of_pos_right (by exact_mod_cast c.lt) (two_zpow_pos e')
        _ ≤ 2 ^ F.precision * 2 ^ (e - 1) :=
          mul_le_mul_of_nonneg_left (two_zpow_le fine) (by positivity)
    have near := (w.prefers ((2 ^ p : ℕ) : ℤ)).le
    rw [← least] at near
    have dist : |2 ^ F.precision * (2 : ℚ) ^ (e - 1) - x| =
        x - 2 ^ F.precision * 2 ^ (e - 1) := by
      rw [abs_sub_comm, abs_of_nonneg (by linarith)]
    have dist' : |m' * (2 : ℚ) ^ e' - x| = x - m' * 2 ^ e' := by
      rw [abs_sub_comm, abs_of_nonneg (by linarith)]
    left
    rw [dist']
    linarith

/-- The rounded half units in their one form. -/
lemma canonical_of_within (w : Within x n (e - 1) rest) (low_le : F.low ≤ e)
    (leads : e = F.low ∨ 2 ^ F.precision * (2 : ℚ) ^ (e - 1) ≤ x)
    (lt : x < 2 ^ F.precision * (2 : ℚ) ^ e) :
    (F.Canonical (roundHalf n rest) e ∧ roundHalf n rest < 2 ^ F.precision) ∨
      (roundHalf n rest = 2 ^ F.precision ∧ F.Canonical (2 ^ (F.precision - 1)) (e + 1)) := by
  obtain ⟨p, whole⟩ : ∃ p, F.precision = p + 1 := ⟨F.precision - 1, by have := F.two_le; omega⟩
  have bits : n < 2 * 2 ^ F.precision := by
    refine w.lt_of_lt (lt.trans_eq ?_)
    rw [double_unit]
    push_cast
    rfl
  rcases (roundHalf_le bits).lt_or_eq with below | full
  · refine Or.inl ⟨⟨low_le, below, ?_⟩, below⟩
    rcases leads with lowest | large
    · exact Or.inl lowest
    · have long : 2 ^ F.precision ≤ n := w.le_of_le (by push_cast; exact large)
      have half : 2 ^ p ≤ roundHalf n rest :=
        le_roundHalf (by rw [whole, pow_succ] at long; omega)
      refine Or.inr ?_
      rw [whole, pow_succ]
      omega
  · refine Or.inr ⟨full, by omega, ?_, Or.inr ?_⟩
    · exact Nat.pow_lt_pow_right (by norm_num) (by omega)
    · rw [whole, Nat.add_sub_cancel, pow_succ]
      omega

/-- At the highest exponent half units round out of the format exactly from the overflow bound
on. -/
lemma overflow_iff (w : Within x n (F.high - 1) rest) (bits : n < 2 * 2 ^ F.precision) :
    F.overflow ≤ x ↔ roundHalf n rest = 2 ^ F.precision := by
  have even : 2 ^ F.precision % 2 = 0 := by
    obtain ⟨p, whole⟩ : ∃ p, F.precision = p + 1 := ⟨F.precision - 1, by have := F.two_le; omega⟩
    rw [whole, pow_succ, Nat.mul_mod_left]
  have last : F.overflow = (2 * 2 ^ F.precision - 1 : ℕ) * (2 : ℚ) ^ (F.high - 1) := by
    rw [overflow, Nat.cast_sub (Nat.one_le_iff_ne_zero.mpr (by positivity)), pow_succ]
    push_cast
    ring
  rw [roundHalf_eq_iff bits even, last]
  constructor
  · exact w.le_of_le
  · intro long
    have grows : ((2 * 2 ^ F.precision - 1 : ℕ) : ℚ) ≤ n := by exact_mod_cast long
    exact (mul_le_mul_of_nonneg_right grows (two_zpow_pos _).le).trans w.le

/-- Below the highest exponent there is no overflow. -/
lemma lt_overflow (h : e < F.high) (lt : x < 2 ^ F.precision * (2 : ℚ) ^ e) : x < F.overflow := by
  have one : (1 : ℚ) ≤ 2 ^ F.precision := one_le_pow₀ (by norm_num)
  calc x
    _ < 2 ^ F.precision * 2 ^ e := lt
    _ ≤ 2 ^ F.precision * 2 ^ (F.high - 1) :=
      mul_le_mul_of_nonneg_left (two_zpow_le (by omega)) (by positivity)
    _ ≤ F.overflow := by
      rw [overflow, pow_succ]
      exact mul_le_mul_of_nonneg_right (by linarith) (two_zpow_pos _).le

/-- A number rounds to its rounded half units, or overflows where these leave the format. -/
theorem rounds_of_within (w : Within x n (e - 1) rest) (low_le : F.low ≤ e) (le_high : e ≤ F.high)
    (leads : e = F.low ∨ 2 ^ F.precision * (2 : ℚ) ^ (e - 1) ≤ x)
    (lt : x < 2 ^ F.precision * (2 : ℚ) ^ e) :
    (F.overflow ≤ x ∧ roundHalf n rest = 2 ^ F.precision ∧ e = F.high) ∨
      ∃ m' e', F.Rounds x m' e' ∧ m' * (2 : ℚ) ^ e' = roundHalf n rest * 2 ^ e := by
  have bits : n < 2 * 2 ^ F.precision := by
    refine w.lt_of_lt (lt.trans_eq ?_)
    rw [double_unit]
    push_cast
    rfl
  rcases canonical_of_within w low_le leads lt with ⟨canonical, below⟩ | ⟨full, canonical⟩
  · refine Or.inr ⟨_, _, ⟨canonical, le_high, ?_, fun _ _ c _ => nearest_of_within w leads c⟩, rfl⟩
    rcases le_high.lt_or_eq with inner | last
    · exact lt_overflow inner lt
    · subst last
      exact not_le.mp fun out => below.ne ((overflow_iff w bits).mp out)
  · rcases le_high.lt_or_eq with inner | last
    · obtain ⟨p, whole⟩ : ∃ p, F.precision = p + 2 := ⟨F.precision - 2, by have := F.two_le; omega⟩
      have value : ((2 ^ (F.precision - 1) : ℕ) : ℚ) * 2 ^ (e + 1) = roundHalf n rest * 2 ^ e := by
        rw [full, double_unit, add_sub_cancel_right, whole, show p + 2 - 1 = p + 1 from rfl,
          pow_succ 2 (p + 1)]
        push_cast
        ring
      have even : 2 ^ (F.precision - 1) % 2 = 0 := by
        rw [whole, show p + 2 - 1 = p + 1 from rfl, pow_succ, Nat.mul_mod_left]
      refine Or.inr ⟨_, _, ⟨canonical, by omega, lt_overflow inner lt, ?_⟩, value⟩
      intro m' e' c _
      rw [value]
      rcases nearest_of_within w leads c with near | ⟨same, _⟩
      · exact Or.inl near
      · exact Or.inr ⟨same, Or.inr even⟩
    · subst last
      exact Or.inl ⟨(overflow_iff w bits).mpr full, full, rfl⟩

end BinaryFormat

end Qcvm.Lib

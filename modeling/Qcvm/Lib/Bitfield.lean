import Mathlib.Algebra.Order.Ring.Nat
import Mathlib.Tactic.Common

/-!
# Fields of a word

The `w` bits of a word from bit `p` on are a field of it. It is taken out by two shifts, which clear
the bits above or copy the sign there (`shiftLeft_ushiftRight`, `shiftLeft_sshiftRight`), and
replaced by masks (`insertBits`). A field that was replaced reads as what it was replaced by, and
the bits outside are as they were; all of it holds for words of any length.
-/

namespace Qcvm.Lib

variable {n p w q v i : Nat} {a b c : BitVec n}

/-- The word whose lowest `w` bits are set. -/
def lowBits (n w : Nat) : BitVec n := BitVec.ofNat n (2 ^ w - 1)

/-- Replaces the `w` bits from bit `p` on by the lowest bits of `a`. -/
def insertBits (p w : Nat) (a c : BitVec n) : BitVec n :=
  c &&& ~~~(lowBits n w <<< p) ||| (a &&& lowBits n w) <<< p

lemma getLsbD_lowBits : (lowBits n w).getLsbD i = (decide (i < n) && decide (i < w)) := by
  rw [lowBits, BitVec.getLsbD_ofNat, Nat.testBit_two_pow_sub_one]

/-- The mask as it is computed for a field shorter than the word. -/
lemma shiftLeft_sub_one (lt : w < n) : 1#n <<< w - 1#n = lowBits n w := by
  have one : 1 < 2 ^ n := Nat.one_lt_two_pow (by omega)
  have power : 2 ^ w < 2 ^ n := Nat.pow_lt_pow_right (by decide) lt
  have pos : 0 < 2 ^ w := Nat.two_pow_pos w
  have shifted : (1#n <<< w).toNat = 2 ^ w := by
    rw [BitVec.toNat_shiftLeft, BitVec.toNat_ofNat, Nat.mod_eq_of_lt one, Nat.one_shiftLeft,
      Nat.mod_eq_of_lt power]
  have le : 1#n ≤ 1#n <<< w := by
    rw [BitVec.le_def, shifted, BitVec.toNat_ofNat, Nat.mod_eq_of_lt one]
    exact pos
  apply BitVec.eq_of_toNat_eq
  rw [BitVec.toNat_sub_of_le le, shifted, BitVec.toNat_ofNat, lowBits, BitVec.toNat_ofNat,
    Nat.mod_eq_of_lt one, Nat.mod_eq_of_lt (by omega)]

/-- The mask for a field that takes the whole word. -/
lemma allOnes_eq_lowBits (le : n ≤ w) : BitVec.allOnes n = lowBits n w := by
  apply BitVec.eq_of_getLsbD_eq
  intro i lt
  rw [BitVec.getLsbD_allOnes, getLsbD_lowBits, decide_eq_true (by omega : i < w), Bool.and_true]

/-- The bits of a word with a field replaced. -/
lemma getLsbD_insertBits (lt : i < n) : (insertBits p w a c).getLsbD i
    = if p ≤ i ∧ i < p + w then a.getLsbD (i - p) else c.getLsbD i := by
  have inside : i - p < n := by omega
  simp only [insertBits, BitVec.getLsbD_or, BitVec.getLsbD_and, BitVec.getLsbD_not,
    BitVec.getLsbD_shiftLeft, getLsbD_lowBits, lt, inside, decide_true, Bool.true_and]
  by_cases start : i < p
  · rw [if_neg (by omega), decide_eq_true start]
    simp
  · by_cases field : i - p < w
    · rw [if_pos (by omega), decide_eq_false start, decide_eq_true field]
      simp
    · rw [if_neg (by omega), decide_eq_false start, decide_eq_false field]
      simp

/-- A field that was replaced reads as what it was replaced by. -/
theorem extractLsb'_insertBits (fits : p + w ≤ n) :
    (insertBits p w a c).extractLsb' p w = a.setWidth w := by
  apply BitVec.eq_of_getLsbD_eq
  intro i lt
  rw [BitVec.getLsbD_extractLsb', BitVec.getLsbD_setWidth, getLsbD_insertBits (by omega),
    if_pos (by omega), Nat.add_sub_cancel_left]

/-- Fields apart from each other are replaced in any order. -/
theorem insertBits_comm (apart : ∀ i, p ≤ i ∧ i < p + w → ¬(q ≤ i ∧ i < q + v)) :
    insertBits p w a (insertBits q v b c) = insertBits q v b (insertBits p w a c) := by
  apply BitVec.eq_of_getLsbD_eq
  intro i lt
  simp only [getLsbD_insertBits lt]
  by_cases first : p ≤ i ∧ i < p + w
  · rw [if_pos first, if_neg (apart i first), if_pos first]
  · rw [if_neg first, if_neg first]

lemma insertBits_zero : insertBits p 0 a c = c := by
  apply BitVec.eq_of_getLsbD_eq
  intro i lt
  rw [getLsbD_insertBits lt, if_neg (by omega)]

/-- A field that is shifted to the top of the word. -/
lemma getLsbD_raised (fits : p + w ≤ n) (inside : i < w) :
    (a <<< (n - w - p)).getLsbD (n - w + i) = (a.extractLsb' p w).getLsbD i := by
  rw [BitVec.getLsbD_shiftLeft, BitVec.getLsbD_extractLsb',
    decide_eq_true (by omega : n - w + i < n), decide_eq_false (by omega : ¬n - w + i < n - w - p),
    decide_eq_true inside, show n - w + i - (n - w - p) = p + i by omega]
  rfl

/-- Shifting a field to the top and back down takes it out. -/
theorem shiftLeft_ushiftRight (fits : p + w ≤ n) :
    (a <<< (n - w - p)) >>> (n - w) = (a.extractLsb' p w).setWidth n := by
  apply BitVec.eq_of_getLsbD_eq
  intro i lt
  rw [BitVec.getLsbD_ushiftRight, BitVec.getLsbD_setWidth, decide_eq_true lt, Bool.true_and]
  by_cases inside : i < w
  · exact getLsbD_raised fits inside
  · rw [BitVec.getLsbD_of_ge _ _ (by omega), BitVec.getLsbD_of_ge _ _ (by omega)]

/-- Shifting it back with the sign sign-extends it. -/
theorem shiftLeft_sshiftRight (pos : 0 < w) (fits : p + w ≤ n) :
    (a <<< (n - w - p)).sshiftRight (n - w) = (a.extractLsb' p w).signExtend n := by
  have sign : (a <<< (n - w - p)).msb = (a.extractLsb' p w).msb := by
    rw [BitVec.msb_eq_getLsbD_last, BitVec.msb_eq_getLsbD_last,
      show n - 1 = n - w + (w - 1) by omega]
    exact getLsbD_raised fits (by omega)
  apply BitVec.eq_of_getLsbD_eq
  intro i lt
  rw [BitVec.getLsbD_sshiftRight, BitVec.getLsbD_signExtend, sign, decide_eq_true lt,
    decide_eq_false (by omega : ¬n ≤ i)]
  by_cases inside : i < w
  · rw [if_pos (by omega), if_pos inside, getLsbD_raised fits inside]
    rfl
  · rw [if_neg (by omega), if_neg inside]
    rfl

end Qcvm.Lib

import Qcvm.Num

/-!
# Digits

The digits of the number parsers and of the escapes: `char::to_digit` on bytes.
-/

namespace Qcvm.Stdlib

/-- `char::to_digit` in base 36, of a byte as a character (`digit_value`). -/
def digitValue (c : Byte) : Option Nat :=
  if 48 ≤ c ∧ c ≤ 57 then some (c - 48).toNat
  else if 97 ≤ c ∧ c ≤ 122 then some (c - 97 + 10).toNat
  else if 65 ≤ c ∧ c ≤ 90 then some (c - 65 + 10).toNat
  else none

/-- The value of a digit of a base. -/
def digitOf (base : Nat) (c : Byte) : Option Nat := (digitValue c).filter fun d => d < base

/-- `u8::is_ascii_alphanumeric`. -/
def isAlphanumeric (c : Byte) : Bool := (digitValue c).isSome

lemma digitOf_eq_some {base d : Nat} {c : Byte} :
    digitOf base c = some d ↔ digitValue c = some d ∧ d < base := by
  unfold digitOf
  rw [Option.filter_eq_some_iff, decide_eq_true_iff]

lemma digitOf_lt {base d : Nat} {c : Byte} (e : digitOf base c = some d) : d < base :=
  (digitOf_eq_some.mp e).2

end Qcvm.Stdlib

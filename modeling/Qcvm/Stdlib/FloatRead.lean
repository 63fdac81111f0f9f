import Qcvm.Stdlib.FloatText
import Qcvm.Stdlib.Strtod

/-!
# Printed doubles read back

With seventeen significant digits what `printf` prints of a double is nearer to it than any other double
is, and `strtod`, which rounds correctly, reads the same double back.
-/

namespace Qcvm.Stdlib

open Lib

/-! ## The double near a number -/

section Near

variable {d d' : DWord} {x y : ℚ} {m : Nat} {e : Int}

lemma negateF64_toNat (plus : d.msb = false) : (negateF64 d).toNat = 2 ^ 63 + d.toNat := by
  have small : d.toNat < 2 ^ 63 := by
    rw [BitVec.msb_eq_decide, decide_eq_false_iff_not] at plus
    omega
  have low : (negateF64 d).toNat % 2 ^ 63 = d.toNat := by
    unfold negateF64
    rw [BitVec.toNat_xor, Nat.xor_mod_two_pow, Nat.mod_eq_of_lt small]
    exact Nat.xor_zero _
  have high : (negateF64 d).toNat / 2 ^ 63 = 1 := by
    unfold negateF64
    rw [BitVec.toNat_xor, Nat.xor_div_two_pow, Nat.div_eq_of_lt small]
    exact Nat.zero_xor _
  omega

/-- The parts and the sign make a double. -/
lemma eq_of_f64Parts (h : f64Parts d = some (m, e)) (h' : f64Parts d' = some (m, e))
    (plus : d'.msb = false) : (if d.msb then negateF64 d' else d') = d := by
  have same : d.toNat % 2 ^ 63 = d'.toNat % 2 ^ 63 := by
    have field := Nat.mod_lt (d.toNat / 2 ^ 52) (Nat.two_pow_pos 11)
    have fraction := Nat.mod_lt d.toNat (Nat.two_pow_pos 52)
    have fraction' := Nat.mod_lt d'.toNat (Nat.two_pow_pos 52)
    unfold f64Parts at h h'
    dsimp only at h h'
    split_ifs at h with special tiny
    · split_ifs at h' with special' tiny'
      · simp only [Option.some.injEq, Prod.mk.injEq] at h h'
        omega
      · cases h
        simp only [Option.some.injEq, Prod.mk.injEq] at h'
        omega
    · split_ifs at h' with special' tiny'
      · cases h
        simp only [Option.some.injEq, Prod.mk.injEq] at h'
        omega
      · cases h
        simp only [Option.some.injEq, Prod.mk.injEq] at h'
        omega
  have below := d.isLt
  have sign := BitVec.msb_eq_decide d
  have small : d'.toNat < 2 ^ 63 := by
    rw [BitVec.msb_eq_decide, decide_eq_false_iff_not] at plus
    omega
  apply BitVec.eq_of_toNat_eq
  cases minus : d.msb with
  | true =>
    rw [minus, eq_comm, decide_eq_true_iff] at sign
    rw [if_pos rfl, negateF64_toNat plus]
    omega
  | false =>
    rw [minus, eq_comm, decide_eq_false_iff_not] at sign
    rw [if_neg Bool.false_ne_true]
    omega

/-- The double nearest to a number with sixteen more digits than its first one in common with `d` is
`d`. -/
lemma nearest_back (magnitude : f64Magnitude d = some x)
    (near : |y - x| ≤ 1 / 2 * (x * 10 ^ (-16 : ℤ))) (nearest : F64Nearest y d')
    (plus : d'.msb = false) : (if d.msb then negateF64 d' else d') = d := by
  obtain ⟨⟨m, e⟩, parts, rfl⟩ := Option.map_eq_some_iff.mp magnitude
  obtain ⟨canonical, high, -⟩ := f64Parts_canonical parts
  dsimp only at near
  have unit := two_zpow_pos e
  have pos : (0 : ℚ) ≤ m * 2 ^ e := mul_nonneg (Nat.cast_nonneg m) unit.le
  have digits : (10 : ℚ) ^ (-16 : ℤ) * 2 ^ 53 < 1 := by norm_num
  have some : (0 : ℚ) < 10 ^ (-16 : ℤ) := ten_zpow_pos _
  generalize (10 : ℚ) ^ (-16 : ℤ) = q at near digits some
  have finite : y < binary64.overflow := by
    have less : (m : ℚ) ≤ 2 ^ 53 - 1 := by
      have : m + 1 ≤ 2 ^ 53 := canonical.lt
      have cast : (m : ℚ) + 1 ≤ 2 ^ 53 := by exact_mod_cast this
      linarith
    have top : (2 : ℚ) ^ e ≤ 2 ^ (971 : ℤ) := two_zpow_le high
    have largest : m * (2 : ℚ) ^ e ≤ (2 ^ 53 - 1) * 2 ^ (971 : ℤ) :=
      mul_le_mul less top unit.le (by norm_num)
    have double : (2 : ℚ) ^ (971 : ℤ) = 2 * 2 ^ (970 : ℤ) := by
      rw [← zpow_one_add₀ (by norm_num)]
      norm_num
    have bound : binary64.overflow = (2 ^ 54 - 1) * (2 : ℚ) ^ (970 : ℤ) := rfl
    have upper := (abs_le.mp near).2
    have pos' := two_zpow_pos 970
    rw [bound]
    rw [double] at largest
    generalize (2 : ℚ) ^ (970 : ℤ) = u at *
    generalize m * (2 : ℚ) ^ e = x at *
    have part : x * q ≤ (2 ^ 53 - 1) * (2 * u) * q := mul_le_mul_of_nonneg_right largest some.le
    have small := mul_le_mul_of_nonneg_left digits.le pos'.le
    have more := mul_pos pos' some
    have less : x * q ≤ 2 * u - 2 * (u * q) := by linarith only [part, small]
    linarith only [upper, largest, less, more]
  unfold F64Nearest at nearest
  rw [if_neg (not_le.mpr finite)] at nearest
  obtain ⟨v, value, prefers⟩ := nearest
  have closer := (prefers _ _ (f64Value_encode canonical high)).le
  obtain ⟨⟨m', e'⟩, parts', rfl⟩ := Option.map_eq_some_iff.mp value
  rw [plus, if_neg Bool.false_ne_true, one_mul] at closer
  dsimp only at closer
  obtain ⟨canonical', -, -⟩ := f64Parts_canonical parts'
  have reach : |m' * (2 : ℚ) ^ e' - m * 2 ^ e| ≤ m * 2 ^ e * q := by
    have apart := abs_sub_le (m' * (2 : ℚ) ^ e') y (m * 2 ^ e)
    rw [abs_sub_comm (m * (2 : ℚ) ^ e)] at closer
    linarith
  have equal : m' * (2 : ℚ) ^ e' = m * 2 ^ e := by
    by_contra other
    have gap := canonical.gap canonical' other
    have apart := abs_pos.mpr (sub_ne_zero.mpr other)
    have precision : binary64.precision = 53 := rfl
    rw [precision] at gap
    generalize |m' * (2 : ℚ) ^ e' - m * 2 ^ e| = g at *
    generalize m * (2 : ℚ) ^ e = x at *
    nlinarith
  have significands := canonical'.unique canonical equal
  have exponents : e' = e :=
    le_antisymm (canonical'.exponent_le canonical equal) (canonical.exponent_le canonical' equal.symm)
  rw [significands, exponents] at parts'
  exact eq_of_f64Parts parts parts' plus

end Near

/-! ## The text of a number -/

section Text

variable {body s t : List Byte} {y : ℚ} {f n p : Nat} {x : Int}

lemma decimalOf_append : decimalOf (s ++ t) = decimalOf s * 10 ^ t.length + decimalOf t := by
  unfold decimalOf digitValues
  rw [List.map_append, List.reverse_append, Nat.ofDigits_append, List.length_reverse, List.length_map,
    Nat.add_comm, Nat.mul_comm]

lemma decimalOf_zeros (k : Nat) : decimalOf (List.replicate k zeroDigit) = 0 := by
  unfold decimalOf digitValues
  rw [List.map_replicate, List.reverse_replicate]
  exact Nat.ofDigits_replicate_zero

lemma lastDigits_spec (p n : Nat) : (∀ c ∈ lastDigits p n, (digitOf 10 c).isSome) ∧
    (lastDigits p n).length = p ∧ decimalOf (lastDigits p n) = n % 10 ^ p := by
  induction p generalizing n with
  | zero => exact ⟨by simp [lastDigits], rfl, by rw [Nat.pow_zero, Nat.mod_one]; rfl⟩
  | succ p ih =>
    obtain ⟨values, length, value⟩ := ih (n / 10)
    have digit : digitOf 10 (digitByte (n % 10)) = some (n % 10) :=
      digitOf_digitByte (Nat.mod_lt n (by decide)) (by decide)
    refine ⟨?_, ?_, ?_⟩
    · intro c mem
      rcases List.mem_append.mp mem with mem | mem
      · exact values c mem
      · rw [List.mem_singleton.mp mem, digit]
        rfl
    · rw [lastDigits, List.length_append, length]
      rfl
    · have last : decimalOf [digitByte (n % 10)] = n % 10 := by
        unfold decimalOf digitValues
        rw [List.map_singleton, digit]
        exact Nat.ofDigits_singleton
      rw [lastDigits, decimalOf_append, value, last, List.length_singleton, Nat.pow_one, Nat.pow_succ',
        Nat.mod_mul]
      ring

/-- The text is a number without an exponent, with at most `f` decimals. -/
def Shows (body : List Byte) (y : ℚ) (f : Nat) : Prop :=
  ∃ n : DecimalNumber, n.exponent = none ∧ n.mantissa = body ∧ n.value = y ∧ n.frac.length ≤ f

lemma shows_decimal (n p : Nat) (alt : Bool) :
    Shows (withPoint (decimalText n p) p alt) (n * (10 : ℚ) ^ (-p : ℤ)) p := by
  have whole (k : Nat) : (∀ c ∈ numberText 10 k, (digitOf 10 c).isSome) ∧ numberText 10 k ≠ [] ∧
      decimalOf (numberText 10 k) = k := by
    obtain ⟨c, s, e, -⟩ := numberText_head (by decide : 1 < 10) (by decide) k
    exact ⟨numberText_digits (by decide) (by decide) k, by rw [e]; exact List.cons_ne_nil _ _,
      ofDigits_numberText (by decide) (by decide) k⟩
  unfold withPoint decimalText
  by_cases zero : p = 0
  · subst zero
    obtain ⟨values, some, value⟩ := whole n
    rw [if_pos rfl]
    have shown : decimalOf (numberText 10 n ++ []) * (10 : ℚ) ^ ((0 : ℤ) - ([] : List Byte).length) =
        n * (10 : ℚ) ^ (-(0 : ℕ) : ℤ) := by
      rw [List.append_nil, value]
      rfl
    cases alt with
    | false =>
      exact ⟨⟨numberText 10 n, false, [], none, by simpa using values, some, fun _ => rfl, by simp⟩, rfl,
        List.append_nil _, shown, Nat.le_refl _⟩
    | true =>
      exact ⟨⟨numberText 10 n, true, [], none, by simpa using values, some, fun _ => rfl, by simp⟩, rfl,
        rfl, shown, Nat.le_refl _⟩
  · obtain ⟨values, some, value⟩ := whole (n / 10 ^ p)
    obtain ⟨lasts, length, last⟩ := lastDigits_spec p n
    rw [if_neg zero, if_neg (by simp [zero])]
    refine ⟨⟨numberText 10 (n / 10 ^ p), true, lastDigits p n, none, ?_, some, by simp, by simp⟩, rfl, rfl,
      ?_, length.le⟩
    · intro c mem
      exact (List.mem_append.mp mem).elim (values c) (lasts c)
    · unfold DecimalNumber.value DecimalNumber.power
      dsimp only [Option.elim_none]
      rw [decimalOf_append, value, last, length, Nat.div_add_mod', zero_sub]

/-- Zeros in front of a number. -/
lemma Shows.zeros (h : Shows body y f) (k : Nat) : Shows (List.replicate k zeroDigit ++ body) y f := by
  obtain ⟨n, exponent, rfl, rfl, frac⟩ := h
  refine ⟨{ n with
    whole := List.replicate k zeroDigit ++ n.whole
    values := ?_
    nonempty := List.append_ne_nil_of_right_ne_nil _ n.nonempty }, exponent, ?_, ?_, frac⟩
  · intro c mem
    rw [List.append_assoc] at mem
    rcases List.mem_append.mp mem with mem | mem
    · rw [List.eq_of_mem_replicate mem]
      decide
    · exact n.values c mem
  · exact List.append_assoc _ _ _
  · unfold DecimalNumber.value DecimalNumber.power
    dsimp only
    rw [List.append_assoc, decimalOf_append, decimalOf_zeros, Nat.zero_mul, Nat.zero_add]

/-- Zeros at the end of the decimals, and a point without decimals. -/
lemma Shows.trim (h : Shows body y f) : Shows (trimDigits body) y f := by
  obtain ⟨n, exponent, rfl, rfl, frac⟩ := h
  have noPoint (c : Byte) (digit : (digitOf 10 c).isSome) : c ≠ pointByte := by
    rintro rfl
    exact absurd digit (by decide)
  have wholes : pointByte ∉ n.whole :=
    fun mem => noPoint _ (n.values _ (List.mem_append_left _ mem)) rfl
  cases point : n.point with
  | false =>
    refine ⟨n, exponent, ?_, rfl, frac⟩
    unfold trimDigits DecimalNumber.mantissa
    rw [point, if_neg Bool.false_ne_true, List.append_nil, if_neg]
    exact fun mem => wholes (List.contains_iff_mem.mp mem)
  | true =>
    -- The decimals are those that are kept and the zeros that are cut off.
    obtain ⟨k, zeros⟩ : ∃ k, n.frac = n.frac.rdropWhile (· == zeroDigit) ++ List.replicate k zeroDigit := by
      refine ⟨(n.frac.rtakeWhile (· == zeroDigit)).length, ?_⟩
      have all : n.frac.rtakeWhile (· == zeroDigit) =
          List.replicate (n.frac.rtakeWhile (· == zeroDigit)).length zeroDigit :=
        List.eq_replicate_of_mem fun c mem => by
          have zero := List.mem_rtakeWhile_imp mem
          exact eq_of_beq zero
      rw [← all, List.rdropWhile_append_rtakeWhile]
    have last (c : Byte) (e : (n.frac.rdropWhile (· == zeroDigit)).getLast? = some c) : c ≠ zeroDigit := by
      have hl : n.frac.rdropWhile (· == zeroDigit) ≠ [] := fun none => by rw [none] at e; cases e
      rw [List.getLast?_eq_some_getLast hl, Option.some.injEq] at e
      have other := List.rdropWhile_last_not (· == zeroDigit) n.frac hl
      rw [e] at other
      simpa using other
    generalize n.frac.rdropWhile (· == zeroDigit) = decimals at zeros last
    have values : ∀ c ∈ n.whole ++ decimals, (digitOf 10 c).isSome := by
      intro c mem
      refine n.values c ?_
      rw [zeros, ← List.append_assoc]
      exact List.mem_append_left _ mem
    -- The zeros scale the digits and the unit alike, so the value is kept.
    have value : decimalOf (n.whole ++ decimals) * (10 : ℚ) ^ ((0 : ℤ) - decimals.length) = n.value := by
      have power : n.power = 0 := by
        unfold DecimalNumber.power
        rw [exponent, Option.elim_none]
      have unit : (10 : ℚ) ^ ((0 : ℤ) - decimals.length) =
          10 ^ k * 10 ^ ((0 : ℤ) - (decimals.length + k : ℕ)) := by
        rw [← zpow_natCast, ← ten_zpow_add]
        congr 1
        push_cast
        ring
      have whole : decimalOf (n.whole ++ n.frac) = decimalOf (n.whole ++ decimals) * 10 ^ k := by
        rw [zeros, ← List.append_assoc, decimalOf_append, decimalOf_zeros, List.length_replicate,
          Nat.add_zero]
      have length : n.frac.length = decimals.length + k := by
        rw [zeros, List.length_append, List.length_replicate]
      unfold DecimalNumber.value
      rw [power, whole, length, unit]
      push_cast
      ring
    have length : decimals.length ≤ n.frac.length := by
      rw [zeros, List.length_append]
      exact Nat.le_add_right _ _
    have inside : (n.whole ++ pointByte :: n.frac).contains pointByte = true :=
      List.contains_iff_mem.mpr (List.mem_append_right _ List.mem_cons_self)
    have ends : (n.whole ++ pointByte :: decimals).getLast? =
        some (decimals.getLast?.getD pointByte) := by
      rw [List.getLast?_append, List.getLast?_cons, Option.some_or]
    have cut : (n.whole ++ pointByte :: n.frac).rdropWhile (· == zeroDigit) =
        n.whole ++ pointByte :: decimals := by
      rw [zeros, ← List.cons_append, ← List.append_assoc, rdropWhile_zeros, List.rdropWhile_eq_self_iff]
      intro hl
      rw [List.getLast?_eq_some_getLast hl, Option.some.injEq] at ends
      rw [ends]
      cases e : decimals.getLast? with
      | none => decide
      | some c => simpa using last c e
    have trimmed : trimDigits n.mantissa =
        if decimals = [] then n.whole else n.whole ++ pointByte :: decimals := by
      unfold trimDigits DecimalNumber.mantissa
      rw [point, if_pos rfl, if_pos inside]
      dsimp only
      rw [cut, ends]
      cases e : decimals.getLast? with
      | none =>
        rw [List.getLast?_eq_none_iff.mp e]
        exact List.dropLast_concat
      | some c =>
        have digit := values c (List.mem_append_right _ (List.mem_of_getLast? e))
        have some : decimals ≠ [] := fun none => by rw [none] at e; cases e
        rw [Option.getD_some, if_neg (fun h => noPoint c digit (Option.some.inj h)), if_neg some]
    -- Without decimals the point goes too.
    by_cases none : decimals = []
    · subst none
      rw [trimmed, if_pos rfl]
      exact ⟨⟨n.whole, false, [], none, values, n.nonempty, fun _ => rfl, by simp⟩, rfl,
        List.append_nil _, value, Nat.zero_le _⟩
    · rw [trimmed, if_neg none]
      exact ⟨⟨n.whole, true, decimals, Option.none, values, n.nonempty, by simp, by simp⟩, rfl, rfl, value,
        length.trans frac⟩

/-- The exponent that is printed behind a number. -/
lemma Shows.scaled {suffix : List Byte} (h : Shows body y f) (small : |x| ≤ 500000000)
    (ends : suffix = [] ∧ x = 0 ∨ ∃ upper, suffix = exponentSuffix x upper) :
    ∃ n : DecimalNumber, n.text = body ++ suffix ∧ n.value = y * 10 ^ x ∧ |n.power| ≤ 500000000 ∧
      n.frac.length ≤ f := by
  obtain ⟨n, exponent, rfl, rfl, frac⟩ := h
  rcases ends with ⟨rfl, rfl⟩ | ⟨upper, rfl⟩
  · refine ⟨n, ?_, by rw [zpow_zero, mul_one], ?_, frac⟩
    · unfold DecimalNumber.text
      rw [exponent, Option.elim_none]
    · unfold DecimalNumber.power
      rw [exponent, Option.elim_none]
      exact small
  · have digits : (∀ c ∈ numberText 10 x.natAbs, (digitOf 10 c).isSome) ∧
        decimalOf (numberText 10 x.natAbs) = x.natAbs :=
      ⟨numberText_digits (by decide) (by decide) _, ofDigits_numberText (by decide) (by decide) _⟩
    have some : numberText 10 x.natAbs ≠ [] := by
      obtain ⟨c, s, e, -⟩ := numberText_head (by decide : 1 < 10) (by decide) x.natAbs
      rw [e]
      exact List.cons_ne_nil _ _
    have power : (if [if x < 0 then minusSign else plusSign] = [minusSign] then
        -(decimalOf (List.replicate (2 - (numberText 10 x.natAbs).length) zeroDigit ++
          numberText 10 x.natAbs) : ℤ) else decimalOf (List.replicate
            (2 - (numberText 10 x.natAbs).length) zeroDigit ++ numberText 10 x.natAbs)) = x := by
      rw [decimalOf_append, decimalOf_zeros, Nat.zero_mul, Nat.zero_add, digits.2]
      by_cases minus : x < 0
      · rw [if_pos minus, if_pos rfl]
        omega
      · rw [if_neg minus, if_neg (by decide)]
        omega
    refine ⟨{ n with
      exponent := Option.some (if upper then 69 else 101, [if x < 0 then minusSign else plusSign],
        List.replicate (2 - (numberText 10 x.natAbs).length) zeroDigit ++ numberText 10 x.natAbs)
      exponent_form := ?_ }, rfl, ?_, ?_, frac⟩
    · rintro _ ⟨⟩
      refine ⟨?_, ?_, List.append_ne_nil_of_right_ne_nil _ some, fun c mem => ?_⟩
      · cases upper with
        | false => exact .inl rfl
        | true => exact .inr rfl
      · dsimp only
        split
        next => exact .inr (.inr rfl)
        next => exact .inr (.inl rfl)
      · rcases List.mem_append.mp mem with mem | mem
        · rw [List.eq_of_mem_replicate mem]
          decide
        · exact digits.1 c mem
    · unfold DecimalNumber.value
      have plain : n.power = 0 := by
        unfold DecimalNumber.power
        rw [exponent, Option.elim_none]
      rw [plain, mul_assoc, ← ten_zpow_add, zero_sub]
      unfold DecimalNumber.power
      dsimp only [Option.elim_some]
      rw [power, Int.sub_eq_add_neg, Int.add_comm]
    · unfold DecimalNumber.power
      dsimp only [Option.elim_some]
      rw [power]
      exact small

/-- The field of a number: spaces, its sign, zeros in front of the digits, and spaces. -/
lemma field_text (negative : Bool) (body suffix : List Byte) (spec : Spec) {zeroPad : Bool}
    (left : zeroPad = true → spec.left = false) :
    ∃ s sign t k, Pieces.text ⟨floatSign negative spec, [], 0, body, 0, suffix⟩ spec zeroPad =
        s ++ (sign ++ (List.replicate k zeroDigit ++ body ++ suffix ++ t)) ∧
      (zeroPad = false → k = 0) ∧ (∀ c ∈ s, isCSpace c = true) ∧ (∀ c ∈ t.head?, isCSpace c = true) ∧
      (sign = [] ∨ sign = [plusSign] ∨ sign = [minusSign]) ∧ (sign = [minusSign] ↔ negative = true) := by
  have spaces (k : Nat) : ∀ c ∈ List.replicate k spaceByte, isCSpace c = true := by
    intro c mem
    rw [List.eq_of_mem_replicate mem]
    rfl
  obtain ⟨k, sign, signEq, signs, minus⟩ : ∃ k sign, (floatSign negative spec).toList =
      List.replicate k spaceByte ++ sign ∧ (sign = [] ∨ sign = [plusSign] ∨ sign = [minusSign]) ∧
        (sign = [minusSign] ↔ negative = true) := by
    unfold floatSign
    cases negative with
    | true => exact ⟨0, [minusSign], rfl, .inr (.inr rfl), iff_of_true rfl rfl⟩
    | false =>
      rw [if_neg Bool.false_ne_true]
      split
      next => exact ⟨0, [plusSign], rfl, .inr (.inl rfl), by decide⟩
      next =>
        split
        next => exact ⟨1, [], rfl, .inl rfl, by decide⟩
        next => exact ⟨0, [], rfl, .inl rfl, by decide⟩
  set pad := spec.width - Pieces.len ⟨floatSign negative spec, [], 0, body, 0, suffix⟩ with padEq
  refine ⟨(if !spec.left && !zeroPad then List.replicate pad spaceByte else []) ++
    List.replicate k spaceByte, sign, if spec.left then List.replicate pad spaceByte else [],
    if zeroPad then pad else 0, ?_, fun no => by rw [no]; rfl, ?_, ?_, signs, minus⟩
  · have zeros : (if !spec.left && zeroPad then List.replicate pad zeroDigit else []) =
        List.replicate (if zeroPad then pad else 0) zeroDigit := by
      cases zeroPad with
      | false => rw [Bool.and_false]; rfl
      | true => rw [left rfl]; rfl
    unfold Pieces.text
    dsimp only
    rw [← padEq, signEq, zeros]
    simp only [List.append_assoc, List.replicate_zero, List.nil_append]
  · intro c mem
    rcases List.mem_append.mp mem with mem | mem
    · split at mem
      next => exact spaces _ c mem
      next => cases mem
    · exact spaces k c mem
  · intro c mem
    split at mem
    next => exact spaces _ c (List.mem_of_mem_head? mem)
    next => cases mem

/-- A printed number is read, between the spaces and behind the zeros of its field. -/
lemma Shows.reads {F : FloatOps} {ldexp : DWord → Int → DWord} {parse : List Byte → Int → DWord}
    {suffix : List Byte} (h : Shows body y f) (laws : ParsesNearest parse) (few : f ≤ 500000000)
    (small : |x| ≤ 500000000) (ends : suffix = [] ∧ x = 0 ∨ ∃ upper, suffix = exponentSuffix x upper)
    (negative : Bool) (spec : Spec) {zeroPad : Bool} (left : zeroPad = true → spec.left = false) :
    ∃ d, (strtod F ldexp parse
        (Pieces.text ⟨floatSign negative spec, [], 0, body, 0, suffix⟩ spec zeroPad)).1 =
        (if negative then negateF64 d else d) ∧ F64Nearest (y * 10 ^ x) d ∧ d.msb = false := by
  obtain ⟨s, sign, t, k, field, -, before, behind, signs, minus⟩ :=
    field_text negative body suffix spec left
  obtain ⟨n, text, value, power, frac⟩ := (h.zeros k).scaled small ends
  obtain ⟨d, read, nearest, plus⟩ :=
    @strtod_decimal F ldexp parse _ _ laws n sign signs before behind power (frac.trans few)
  rw [value] at nearest
  refine ⟨d, ?_, nearest, plus⟩
  rw [field, ← text, read]
  exact if_congr minus rfl rfl

/-- Infinity is read. -/
lemma strtod_infinity {F : FloatOps} {ldexp : DWord → Int → DWord} {parse : List Byte → Int → DWord}
    {sign : List Byte} (signs : sign = [] ∨ sign = [plusSign] ∨ sign = [minusSign])
    (before : ∀ c ∈ s, isCSpace c = true) (word : body = [105, 110, 102] ∨ body = [73, 78, 70]) :
    (strtod F ldexp parse (s ++ (sign ++ (body ++ t)))).1 =
      if sign = [minusSign] then negateF64 f64Infinity else f64Infinity := by
  have spaces : (s ++ (sign ++ (body ++ t))).takeWhile isCSpace = s := by
    rw [List.takeWhile_append_of_pos before]
    rcases signs with rfl | rfl | rfl
    · rcases word with rfl | rfl
      · exact List.append_nil _
      · exact List.append_nil _
    · exact List.append_nil _
    · exact List.append_nil _
  have read : readSign (sign ++ (body ++ t)) = (decide (sign = [minusSign]), sign.length) := by
    rcases signs with rfl | rfl | rfl
    · rcases word with rfl | rfl
      · rfl
      · rfl
    · rfl
    · rfl
  have rest : (s ++ (sign ++ (body ++ t))).drop (s.length + sign.length) = body ++ t := by
    rw [← List.drop_drop, List.drop_left, List.drop_left]
  have found : startsWithCi (body ++ t) [105, 110, 102] = true := by
    rcases word with rfl | rfl
    · rfl
    · rfl
  unfold strtod
  rw [spaces]
  dsimp only
  rw [List.drop_left, read]
  dsimp only
  rw [rest, if_pos found]
  simp only [decide_eq_true_eq]

end Text

/-! ## Enough digits -/

section Enough

variable {x : ℚ} {d : DWord}

lemma log_bounds (magnitude : f64Magnitude d = some x) (pos : 0 < x) :
    -324 ≤ Int.log 10 x ∧ Int.log 10 x ≤ 309 := by
  obtain ⟨⟨m, e⟩, parts, rfl⟩ := Option.map_eq_some_iff.mp magnitude
  obtain ⟨canonical, high, -⟩ := f64Parts_canonical parts
  obtain ⟨low, less, -⟩ := canonical_iff.mp canonical
  dsimp only at pos ⊢
  have unit := two_zpow_pos e
  have some : (1 : ℚ) ≤ m := by
    have nonzero : m ≠ 0 := by
      rintro rfl
      rw [Nat.cast_zero, zero_mul] at pos
      exact lt_irrefl _ pos
    exact_mod_cast Nat.one_le_iff_ne_zero.mpr nonzero
  constructor
  · rw [← Int.zpow_le_iff_le_log (by decide) pos]
    have tiny : (10 : ℚ) ^ (-324 : ℤ) ≤ 2 ^ (-1074 : ℤ) := by
      have powers : 2 ^ 1074 ≤ 10 ^ 324 := by decide +kernel
      rw [zpow_neg, zpow_neg]
      exact inv_anti₀ (by positivity) (by exact_mod_cast powers)
    calc ((10 : ℕ) : ℚ) ^ (-324 : ℤ)
      _ ≤ 2 ^ (-1074 : ℤ) := by exact_mod_cast tiny
      _ ≤ 2 ^ e := two_zpow_le low
      _ = 1 * 2 ^ e := (one_mul _).symm
      _ ≤ m * 2 ^ e := mul_le_mul_of_nonneg_right some unit.le
  · have bound : m * (2 : ℚ) ^ e < ((10 : ℕ) : ℚ) ^ (310 : ℤ) := by
      have huge : (2 : ℚ) ^ 53 * 2 ^ (971 : ℤ) < 10 ^ (310 : ℤ) := by
        have powers : 2 ^ 53 * 2 ^ 971 < 10 ^ 310 := by decide +kernel
        exact_mod_cast powers
      calc m * (2 : ℚ) ^ e
        _ ≤ 2 ^ 53 * 2 ^ (971 : ℤ) :=
          mul_le_mul (by exact_mod_cast less.le) (two_zpow_le high) unit.le (by positivity)
        _ < 10 ^ (310 : ℤ) := huge
        _ = ((10 : ℕ) : ℚ) ^ (310 : ℤ) := by norm_num
    have below := (Int.lt_zpow_iff_log_lt (by decide) pos).mp bound
    omega

/-- The precision with which every double is told apart from the others: 16 digits behind the first one for
`e`, 17 significant ones for `g`, and as many decimals for `f` as show 17 digits of the least one. -/
def EnoughDigits (conv : Byte) (spec : Spec) : Prop :=
  ∃ p, spec.prec = some p ∧ p ≤ 400000000 ∧
    (if asciiLower conv = 102 then 340 else if asciiLower conv = 101 then 16 else 17) ≤ p

/-- Sixteen digits more than the first one. -/
lemma near_of_digits (pos : 0 < x) {p : Nat} (enough : 16 ≤ p) {y : ℚ}
    (near : |y - x| ≤ 1 / 2 * 10 ^ (Int.log 10 x - p)) :
    |y - x| ≤ 1 / 2 * (x * 10 ^ (-16 : ℤ)) := by
  have lower : (10 : ℚ) ^ Int.log 10 x ≤ x := by
    exact_mod_cast Int.zpow_log_le_self (b := 10) (by decide) pos
  have digits : (10 : ℚ) ^ (-p : ℤ) ≤ 10 ^ (-16 : ℤ) :=
    zpow_le_zpow_right₀ (by norm_num) (by omega)
  have scaled : (10 : ℚ) ^ (Int.log 10 x - p) ≤ x * 10 ^ (-16 : ℤ) := by
    rw [Int.sub_eq_add_neg, ten_zpow_add]
    exact mul_le_mul lower digits (ten_zpow_pos _).le pos.le
  exact near.trans (mul_le_mul_of_nonneg_left scaled (by norm_num))

/-- What a conversion prints of a finite number: digits that show a number near enough. -/
lemma finitePieces_shows (magnitude : f64Magnitude d = some x) (sign : Option Byte) {conv : Byte}
    (upper : Bool) {spec : Spec} (enough : EnoughDigits conv spec) :
    ∃ body suffix y f z, finitePieces ⟨wholeFixed, wholeSci⟩ sign x (asciiLower conv) upper spec =
        ⟨sign, [], 0, body, 0, suffix⟩ ∧ Shows body y f ∧ f ≤ 500000000 ∧ |z| ≤ 500000000 ∧
      (suffix = [] ∧ z = 0 ∨ ∃ upper, suffix = exponentSuffix z upper) ∧
      |y * 10 ^ z - x| ≤ 1 / 2 * (x * 10 ^ (-16 : ℤ)) := by
  obtain ⟨p, prec, most, least⟩ := enough
  have none : 0 ≤ x := by
    obtain ⟨⟨m, e⟩, -, rfl⟩ := Option.map_eq_some_iff.mp magnitude
    exact mul_nonneg (Nat.cast_nonneg m) (two_zpow_pos e).le
  -- The digits in the style of `f`, and what they show.
  have fixed (q : Nat) (alt : Bool) := shows_decimal (roundEven (x * 10 ^ q)) q alt
  have zeroNear (z : Int) (q : Nat) (zero : x = 0) :
      |(roundEven (x * 10 ^ q) * (10 : ℚ) ^ (-q : ℤ)) * 10 ^ z - x| ≤ 1 / 2 * (x * 10 ^ (-16 : ℤ)) := by
    have still : roundEven 0 = 0 := roundEven_natCast 0
    rw [zero, zero_mul, still, Nat.cast_zero, zero_mul, zero_mul, zero_mul, sub_zero, abs_zero, mul_zero]
  -- The digits in the style of `e`.
  have sci (q : Nat) (alt : Bool) (digits : 16 ≤ q) : ∃ y, Shows (wholeSci x q alt).1 y q ∧
      |(wholeSci x q alt).2.2| ≤ 500000000 ∧
      |y * 10 ^ (wholeSci x q alt).2.2 - x| ≤ 1 / 2 * (x * 10 ^ (-16 : ℤ)) := by
    unfold wholeSci sciText
    dsimp only
    by_cases zero : x = 0
    · rw [if_pos zero]
      refine ⟨_, shows_decimal 0 q alt, by simp, ?_⟩
      rw [zero, Nat.cast_zero, zero_mul, zero_mul, zero_mul, sub_zero, abs_zero, mul_zero]
    · have pos : 0 < x := lt_of_le_of_ne none (Ne.symm zero)
      have bounds := log_bounds magnitude pos
      rw [if_neg zero]
      refine ⟨_, shows_decimal _ q alt, ?_, ?_⟩
      · dsimp only
        rw [abs_le]
        rcases roundDigits_exponent x q with e | e
        · rw [e]
          omega
        · rw [e]
          omega
      · dsimp only
        rw [mul_assoc, ← ten_zpow_add, Int.add_comm, ← Int.sub_eq_add_neg]
        exact near_of_digits pos digits (roundDigits_near none q)
  unfold finitePieces
  dsimp only
  rw [prec, Option.getD_some]
  split
  next f =>
    rw [if_pos f] at least
    refine ⟨_, _, _, p, 0, rfl, fixed p spec.alt, by omega, by decide, .inl ⟨rfl, rfl⟩, ?_⟩
    by_cases zero : x = 0
    · exact zeroNear 0 p zero
    · have pos : 0 < x := lt_of_le_of_ne none (Ne.symm zero)
      have bounds := log_bounds magnitude pos
      have places : Int.log 10 x - (p + Int.log 10 x).toNat = -p := by omega
      have near := roundEven_scaled none p
      rw [zpow_natCast, ← places] at near
      rw [zpow_zero, mul_one, ← places]
      exact near_of_digits pos (by omega) near
  next notF =>
    rw [if_neg notF] at least
    split
    next e =>
      rw [if_pos e] at least
      obtain ⟨y, shows, small, near⟩ := sci p spec.alt least
      exact ⟨_, _, y, p, _, rfl, shows, by omega, small, .inr ⟨upper, rfl⟩, near⟩
    next g =>
      rw [if_neg g] at least
      have whole : max p 1 = p := by omega
      have bound : min (p : Int) i64Max = p := by
        unfold i64Max
        omega
      rw [whole, bound]
      -- `%g` chooses its style by the exponent that the rounded digits have.
      by_cases style : (wholeSci x (p - 1) false).2.2 < p ∧ -4 ≤ (wholeSci x (p - 1) false).2.2
      · rw [if_pos style]
        generalize exp : (wholeSci x (p - 1) false).2.2 = z at style
        have decimals : (subI64 (subI64 p 1) z).toNat = p - 1 - z := by
          have less : subI64 p 1 = p - 1 := subI64_eq (by omega) (by omega)
          rw [less, subI64_eq (by omega) (by omega)]
          omega
        generalize (subI64 (subI64 p 1) z).toNat = q at decimals
        have near : |(roundEven (x * 10 ^ q) * (10 : ℚ) ^ (-q : ℤ)) * 10 ^ (0 : ℤ) - x| ≤
            1 / 2 * (x * 10 ^ (-16 : ℤ)) := by
          by_cases zero : x = 0
          · exact zeroNear 0 q zero
          · have pos : 0 < x := lt_of_le_of_ne none (Ne.symm zero)
            have shown : (roundDigits x (p - 1)).2 = ((p - 1 : ℕ) : ℤ) - q := by
              unfold wholeSci sciText at exp
              rw [if_neg zero] at exp
              dsimp only at exp
              omega
            rw [zpow_zero, mul_one]
            exact near_of_digits pos (p := p - 1) (by omega) (roundEven_digits none shown)
        by_cases alt : spec.alt = true
        · rw [if_pos alt]
          exact ⟨_, _, _, q, 0, rfl, fixed q spec.alt, by omega, by decide, .inl ⟨rfl, rfl⟩, near⟩
        · rw [if_neg alt]
          exact ⟨_, _, _, q, 0, rfl, (fixed q spec.alt).trim, by omega, by decide, .inl ⟨rfl, rfl⟩, near⟩
      · rw [if_neg style]
        obtain ⟨y, shows, small, near⟩ := sci (p - 1) spec.alt (by omega)
        by_cases alt : spec.alt = true
        · rw [if_pos alt]
          exact ⟨_, _, y, _, _, rfl, shows, by omega, small, .inr ⟨upper, rfl⟩, near⟩
        · rw [if_neg alt]
          exact ⟨_, _, y, _, _, rfl, shows.trim, by omega, small, .inr ⟨upper, rfl⟩, near⟩

/-- What `printf` prints of a double with seventeen significant digits `strtod` reads back: every double but
the NaNs, in all the conversions, with any flags and width. -/
theorem printed_float_reads {F : FloatOps} {ldexp : DWord → Int → DWord}
    {parse : List Byte → Int → DWord} (laws : ParsesNearest parse) {conv : Byte} {spec : Spec}
    (number : f64IsNan d = false) (enough : EnoughDigits conv spec) :
    ∃ text : List Byte, (∀ k : Sink, fmtFloat k d conv spec = k.write text) ∧
      (strtod F ldexp parse text).1 = d := by
  unfold fmtFloat fmtFloatOf
  dsimp only
  cases magnitude : f64Magnitude d with
  | none =>
    have special : d.toNat / 2 ^ 52 % 2 ^ 11 = 2047 := by
      unfold f64Magnitude f64Parts at magnitude
      rw [Option.map_eq_none_iff] at magnitude
      dsimp only at magnitude
      split_ifs at magnitude with special
      exact special
    have infinite : (if d.msb then negateF64 f64Infinity else f64Infinity) = d := by
      have fraction : d.toNat % 2 ^ 52 = 0 := by
        unfold f64IsNan at number
        rw [special] at number
        simpa using number
      have below := d.isLt
      apply BitVec.eq_of_toNat_eq
      cases minus : d.msb with
      | true =>
        rw [BitVec.msb_eq_decide, decide_eq_true_iff] at minus
        have bits : (negateF64 f64Infinity).toNat = 2047 * 2 ^ 52 + 2 ^ 63 := by decide
        rw [if_pos rfl, bits]
        omega
      | false =>
        rw [BitVec.msb_eq_decide, decide_eq_false_iff_not] at minus
        have bits : f64Infinity.toNat = 2047 * 2 ^ 52 := by decide
        rw [if_neg Bool.false_ne_true, bits]
        omega
    have reads (word : List Byte) (known : word = [105, 110, 102] ∨ word = [73, 78, 70]) :
        (strtod F ldexp parse (Pieces.text ⟨floatSign d.msb spec, [], 0, word, 0, []⟩ spec false)).1 =
          d := by
      obtain ⟨s, sign, t, k, field, noZeros, before, -, signs, minus⟩ :=
        @field_text d.msb word [] spec false (Bool.false_ne_true · |>.elim)
      rw [field, noZeros rfl, List.replicate_zero, List.nil_append, List.append_nil,
        strtod_infinity signs before known]
      exact (if_congr minus rfl rfl).trans infinite
    dsimp only
    rw [number]
    cases 65 ≤ conv && conv ≤ 90 with
    | false => exact ⟨_, fun k => emit_eq, reads _ (.inl rfl)⟩
    | true => exact ⟨_, fun k => emit_eq, reads _ (.inr rfl)⟩
  | some x =>
    dsimp only
    obtain ⟨body, suffix, y, f, z, pieces, shows, few, small, ends, near⟩ :=
      finitePieces_shows magnitude (floatSign d.msb spec) (65 ≤ conv && conv ≤ 90) enough
    have left : (spec.zero && !spec.left) = true → spec.left = false := by
      intro pads
      simpa using (Bool.and_eq_true_iff.mp pads).2
    obtain ⟨d', read, nearest, plus⟩ :=
      @Shows.reads _ _ _ _ F ldexp parse _ shows laws few small ends d.msb spec _ left
    refine ⟨_, fun k => ?_, read.trans (nearest_back magnitude near nearest plus)⟩
    rw [emit_eq, finitePieces_whole magnitude, pieces]

/-- A tenth, with 17 significant digits in a field of 30 bytes behind a plus. -/
theorem printed_float_reads_tenth : ∃ text : List Byte,
    (∀ k : Sink, fmtFloat k 0x3FB999999999999A 103 ⟨false, false, true, false, false, 30, some 17⟩ =
      k.write text) ∧ (strtod softOps softLdexp softParse text).1 = 0x3FB999999999999A :=
  @printed_float_reads 0x3FB999999999999A softOps softLdexp softParse softParse_nearest 103
    ⟨false, false, true, false, false, 30, some 17⟩ (by decide) ⟨17, rfl, by decide, by decide⟩

end Enough

end Qcvm.Stdlib

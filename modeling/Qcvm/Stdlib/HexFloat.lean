import Mathlib.Data.Nat.Bitwise
import Mathlib.Data.Nat.Digits.Lemmas
import Qcvm.Binary64
import Qcvm.Stdlib.Strtol

/-!
# Hexadecimal floats

`parse_hex_float` and `hex_digits_to_f64` of `stdlib/convert.rs`. The parser keeps 40 digits and one
that stands for the rest, the conversion 64 bits and one that does. So both know how the number
starts and whether anything follows (`Within`), and that much rounds it correctly.
-/

namespace Qcvm.Stdlib

open Lib

/-! ## The conversion of the digits -/

/-- The locals of the digit loop of `hex_digits_to_f64`. -/
structure LeadBits where
  m : Nat
  sticky : Bool
  exp : Int
  deriving DecidableEq, Repr

/-- One digit with its index: the first 16 fill the 64 bits. -/
def LeadBits.feed (l : LeadBits) (digit : Nat × Nat) : LeadBits :=
  if digit.2 < 16 then { l with m := l.m <<< 4 ||| digit.1 }
  else { l with sticky := l.sticky || digit.1 != 0, exp := addI64 l.exp 4 }

/-- The first 64 bits, and whether any bit after them is set. -/
def leadBits (digits : List Nat) (scale : Int) : LeadBits :=
  digits.zipIdx.foldl LeadBits.feed ⟨0, false, scale⟩

/-- The bits that are kept, the first that is dropped, and whether another one is set. -/
def dropBits (m drop : Nat) (sticky : Bool) : Nat × Bool × Bool :=
  if drop = 64 then (0, m >>> 63 == 1, (m <<< 1) % 2 ^ 64 != 0 || sticky)
  else
    let half := 1 <<< (drop - 1)
    let dropped := m &&& (half <<< 1 - 1)
    (m >>> drop, dropped &&& half != 0, dropped &&& (half - 1) != 0 || sticky)

/-- Rounds the kept bits, exact ties to even. -/
def roundKept (kept : Nat) (half rest : Bool) : Nat :=
  if half && (rest || kept &&& 1 == 1) then kept + 1 else kept

/-- `i32::try_from`, the largest value if it does not fit. -/
def toI32 (z : Int) : Int := if -2147483648 ≤ z ∧ z ≤ 2147483647 then z else 2147483647

/-- The double nearest to the bits, from the digit loop on. -/
def LeadBits.toF64 (F : FloatOps) (ldexp : DWord → Int → DWord) (l : LeadBits) : DWord :=
  if l.m = 0 then f64Zero
  else
    let lz := 63 - l.m.log2
    let m := l.m <<< lz
    let exp := subI64 l.exp lz
    let lead := addI64 exp 63
    if 1023 < lead then f64Infinity
    else
      let drop := addI64 11 (max (subI64 (-1022) lead) 0)
      if 64 < drop then f64Zero
      else
        let (kept, half, rest) := dropBits m drop.toNat l.sticky
        ldexp (F.ofU64D (BitVec.ofNat 64 (roundKept kept half rest))) (toI32 (addI64 exp drop))

/-- `hex_digits_to_f64`. -/
def hexDigitsToF64 (F : FloatOps) (ldexp : DWord → Int → DWord) (digits : List Nat) (scale : Int) :
    DWord :=
  (leadBits digits scale).toF64 F ldexp

/-! ## The parser -/

/-- `HEX_DIGITS_KEPT`. -/
def hexDigitsKept : Nat := 40

/-- `.`. -/
def pointByte : Byte := 46

/-- The locals of the digit loop of `parse_hex_float`. -/
structure HexRun where
  digits : List Nat
  sticky : Bool
  scale : Int
  any : Bool
  seenPoint : Bool
  deriving DecidableEq, Repr

namespace HexRun

/-- The locals before the loop. -/
def start : HexRun := ⟨[], false, 0, false, false⟩

/-- Keeps a digit, or what it contributes to the scale and the sticky bit. -/
def keep (r : HexRun) (h : Nat) : HexRun :=
  -- Leading zeros only shift fractional digits.
  if r.digits = [] ∧ h = 0 then r
  else if r.digits.length < hexDigitsKept then { r with digits := r.digits ++ [h] }
  else { r with sticky := r.sticky || h != 0, scale := addI64 r.scale 4 }

/-- One digit. -/
def digit (r : HexRun) (h : Nat) : HexRun :=
  let r := { r with any := true }.keep h
  if r.seenPoint then { r with scale := subI64 r.scale 4 } else r

/-- The digit loop: the locals behind it and the number of bytes that it takes. -/
def read (r : HexRun) : List Byte → HexRun × Nat
  | [] => (r, 0)
  | c :: s =>
    if c = pointByte ∧ r.seenPoint = false then
      let (r, n) := { r with seenPoint := true }.read s
      (r, n + 1)
    else
      match digitOf 16 c with
      | none => (r, 0)
      | some h =>
        let (r, n) := (r.digit h).read s
        (r, n + 1)

end HexRun

/-- The value of decimal digits, saturating. -/
def decimalI64 (digits : List Byte) : Int :=
  digits.foldl (fun e c => addI64 (mulI64 e 10) ((digitOf 10 c).getD 0)) 0

/-- The scale and the position behind the exponent that starts at `i`, if one does. -/
def readHexExponent (s : List Byte) (i : Nat) (scale : Int) : Int × Nat :=
  if s[i]? = some 112 ∨ s[i]? = some 80 then
    let (negative, n) := readSign (s.drop (i + 1))
    let j := i + 1 + n
    let digits := (s.drop j).takeWhile fun c => (digitOf 10 c).isSome
    if digits = [] then (scale, i)
    else
      let e := decimalI64 digits
      (if negative then subI64 scale e else addI64 scale e, j + digits.length)
  else (scale, i)

/-- The value of the digits that were kept, the sticky digit among them. -/
def hexRunValue (F : FloatOps) (ldexp : DWord → Int → DWord) (digits : List Nat) (sticky : Bool)
    (scale : Int) : DWord :=
  let digits' := if sticky then digits ++ [1] else digits
  let scale' := if sticky then subI64 scale 4 else scale
  let top := addI64 scale' (mulI64 digits'.length 4)
  if 1100 < top then f64Infinity
  else if top < -1200 then f64Zero
  else hexDigitsToF64 F ldexp digits' scale'

/-- `parse_hex_float`: the value and the bytes it takes, none without any digit. -/
def parseHexFloat (F : FloatOps) (ldexp : DWord → Int → DWord) (s : List Byte) :
    Option (DWord × Nat) :=
  let (r, i) := HexRun.start.read s
  if r.any = false then none
  else
    let (scale, i) := readHexExponent s i r.scale
    if r.digits = [] then some (f64Zero, i)
    else some (hexRunValue F ldexp r.digits r.sticky scale, i)

/-! ## The number of a list of digits -/

/-- The number that hexadecimal digits stand for, the first one leading. -/
def hexOf (ds : List Nat) : Nat := Nat.ofDigits 16 ds.reverse

section Digits

variable {ds ds' : List Nat} {d : Nat}

@[simp] lemma hexOf_nil : hexOf [] = 0 := rfl

@[simp] lemma hexOf_singleton : hexOf [d] = d := Nat.ofDigits_singleton

/-- The number of digits in sequence. -/
lemma hexOf_append : hexOf (ds ++ ds') = hexOf ds * 16 ^ ds'.length + hexOf ds' := by
  rw [hexOf, List.reverse_append, Nat.ofDigits_append, List.length_reverse, Nat.add_comm,
    Nat.mul_comm]
  rfl

/-- The number with a further digit. -/
lemma hexOf_snoc : hexOf (ds ++ [d]) = 16 * hexOf ds + d := by
  rw [hexOf_append, hexOf_singleton, List.length_singleton, pow_one, mul_comm]

/-- The number of digits is bounded by their count. -/
lemma hexOf_lt (digits : ∀ d ∈ ds, d < 16) : hexOf ds < 16 ^ ds.length := by
  have bound := Nat.ofDigits_lt_base_pow_length (b := 16) (l := ds.reverse) (by norm_num)
    fun d mem => digits d (List.mem_reverse.mp mem)
  rwa [List.length_reverse] at bound

/-- A number whose first digit is not zero fills its digits. -/
lemma le_hexOf (lead : ds.head? ≠ some 0) (long : ds ≠ []) : 16 ^ (ds.length - 1) ≤ hexOf ds := by
  obtain ⟨d, ds, rfl⟩ := List.exists_cons_of_ne_nil long
  have pos : 0 < d := Nat.pos_of_ne_zero fun zero => lead (by rw [List.head?_cons, zero])
  rw [← List.singleton_append, hexOf_append, List.length_append, List.length_singleton,
    Nat.add_sub_cancel_left, hexOf_singleton]
  exact (Nat.le_mul_of_pos_left _ pos).trans (Nat.le_add_right _ _)

/-- Only zeros make zero. -/
lemma hexOf_eq_zero : hexOf ds = 0 ↔ ds.any (· != 0) = false := by
  induction ds using List.reverseRecOn with
  | nil => exact ⟨fun _ => rfl, fun _ => rfl⟩
  | append_singleton ds d ih =>
    rw [hexOf_snoc, List.any_append, Bool.or_eq_false_iff, ← ih]
    simp

/-- A hexadecimal digit is four bits. -/
lemma sixteen_pow (n : Nat) : 16 ^ n = 2 ^ (4 * n) := by
  rw [show 16 = 2 ^ 4 from rfl, ← pow_mul]

/-- The first 16 digits, and whether the others are zeros. -/
lemma hexOf_split (digits : ∀ d ∈ ds, d < 16) :
    hexOf ds / 2 ^ (4 * (ds.length - 16)) = hexOf (ds.take 16) ∧
      decide (hexOf ds % 2 ^ (4 * (ds.length - 16)) ≠ 0) = (ds.drop 16).any (· != 0) := by
  have whole := @hexOf_append (ds.take 16) (ds.drop 16)
  rw [List.take_append_drop, List.length_drop, sixteen_pow] at whole
  have less := @hexOf_lt (ds.drop 16) fun d mem => digits d (List.mem_of_mem_drop mem)
  rw [List.length_drop, sixteen_pow] at less
  rw [whole]
  constructor
  · rw [mul_comm, Nat.mul_add_div (Nat.two_pow_pos _), Nat.div_eq_of_lt less, Nat.add_zero]
  · rw [mul_comm, Nat.mul_add_mod, Nat.mod_eq_of_lt less, Bool.eq_iff_iff, decide_eq_true_iff,
      ← Bool.not_eq_false, ← hexOf_eq_zero]

end Digits

/-! ## The conversion -/

section Convert

variable {digits : List Nat} {scale : Int} {l : LeadBits} {m n drop : Nat} {sticky rest : Bool}

/-- A further digit is fed to the leading bits. -/
lemma leadBits_snoc {d : Nat} :
    leadBits (digits ++ [d]) scale = (leadBits digits scale).feed (d, digits.length) := by
  unfold leadBits
  rw [List.zipIdx_append, List.foldl_append, Nat.zero_add]
  rfl

/-- The loop splits the digits after the sixteenth. -/
lemma leadBits_eq (values : ∀ d ∈ digits, d < 16) (short : digits.length ≤ 41)
    (low : -10000 ≤ scale) (high : scale ≤ 10000) :
    leadBits digits scale = ⟨hexOf (digits.take 16), (digits.drop 16).any (· != 0),
      scale + 4 * (digits.length - 16 : ℕ)⟩ := by
  induction digits using List.reverseRecOn with
  | nil => simp [leadBits]
  | append_singleton ds d ih =>
    have digit : d < 16 := values d (by simp)
    rw [List.length_append, List.length_singleton] at short ⊢
    rw [leadBits_snoc, ih (fun d mem => values d (List.mem_append_left _ mem)) (by omega)]
    unfold LeadBits.feed
    by_cases early : ds.length < 16
    · rw [if_pos early, List.take_of_length_le early.le, List.drop_eq_nil_of_le early.le,
        List.take_of_length_le (by rw [List.length_append, List.length_singleton]; omega),
        List.drop_eq_nil_of_le (by rw [List.length_append, List.length_singleton]; omega),
        hexOf_snoc, ← Nat.shiftLeft_add_eq_or_of_lt digit, Nat.shiftLeft_eq, List.any_nil]
      simp only [LeadBits.mk.injEq, true_and]
      omega
    · have next : addI64 (scale + 4 * (ds.length - 16 : ℕ)) 4 =
          scale + 4 * (ds.length - 16 : ℕ) + 4 := addI64_eq (by omega) (by omega)
      rw [if_neg early, List.take_append_of_le_length (by omega),
        List.drop_append_of_le_length (by omega), List.any_append]
      simp only [LeadBits.mk.injEq, List.any_cons, List.any_nil, Bool.or_false, next, true_and]
      omega

/-- The bits that are dropped, by division. -/
lemma dropBits_eq (fits : m < 2 ^ 64) (pos : 0 < drop) (le : drop ≤ 64) :
    dropBits m drop sticky = (m / 2 ^ (drop - 1) / 2, decide (m / 2 ^ (drop - 1) % 2 = 1),
      sticky || decide (m % 2 ^ (drop - 1) ≠ 0)) := by
  obtain ⟨k, rfl⟩ : ∃ k, drop = k + 1 := ⟨drop - 1, by omega⟩
  rw [Nat.add_sub_cancel]
  unfold dropBits
  by_cases all : k + 1 = 64
  · obtain rfl : k = 63 := by omega
    rw [if_pos rfl, Nat.shiftRight_eq_div_pow, Nat.shiftLeft_eq, Bool.or_comm]
    simp only [Prod.mk.injEq]
    refine ⟨by omega, ?_, ?_⟩
    · rw [Bool.eq_iff_iff, beq_iff_eq, decide_eq_true_iff]
      omega
    · congr 1
      rw [Bool.eq_iff_iff, bne_iff_ne, decide_eq_true_iff]
      omega
  · have mask : 1 <<< k <<< 1 - 1 = 2 ^ (k + 1) - 1 := by
      rw [Nat.one_shiftLeft, Nat.shiftLeft_eq, pow_one, pow_succ]
    have low : m % 2 ^ (k + 1) % 2 ^ k = m % 2 ^ k :=
      Nat.mod_mod_of_dvd m (pow_dvd_pow 2 (Nat.le_succ k))
    rw [if_neg all, Nat.add_sub_cancel]
    dsimp only
    rw [mask, Nat.one_shiftLeft]
    simp only [Nat.and_two_pow_sub_one_eq_mod, low, Nat.shiftRight_eq_div_pow, Prod.mk.injEq]
    refine ⟨by rw [pow_succ, Nat.div_div_eq_div_mul], ?_, ?_⟩
    · rw [Nat.and_two_pow, Nat.testBit_mod_two_pow, Nat.testBit_eq_decide_div_mod_eq]
      by_cases odd : m / 2 ^ k % 2 = 1 <;> simp [odd]
    · rw [Bool.or_comm]
      congr 1
      rw [Bool.eq_iff_iff, bne_iff_ne, decide_eq_true_iff]

/-- Rounding by the kept bits is rounding to the nearest. -/
lemma roundKept_eq : roundKept (n / 2) (decide (n % 2 = 1)) rest = roundHalf n rest := by
  unfold roundKept roundHalf
  rw [Nat.and_one_is_mod]
  by_cases odd : n % 2 = 1 <;> cases rest <;> by_cases up : n / 2 % 2 = 1 <;> simp [odd, up]

/-- Shifting the first bit to the front loses nothing of what is dropped next: either all the bits
are there, or the shift is short. -/
lemma within_drop {x : ℚ} {exp : Int} {lz k : Nat} (w : Within x m exp sticky)
    (short : sticky → lz ≤ k) : Within x (m * 2 ^ lz / 2 ^ k) (exp - lz + k)
      (sticky || decide (m * 2 ^ lz % 2 ^ k ≠ 0)) := by
  cases sticky with
  | false => exact (w.widen lz).shift k
  | true =>
    obtain ⟨j, rfl⟩ := Nat.exists_eq_add_of_le (short rfl)
    have shifted := w.shift j
    rw [Nat.pow_add, mul_comm (2 ^ lz), Nat.mul_div_mul_right _ _ (Nat.two_pow_pos lz),
      Nat.cast_add, show exp - lz + ((lz : Int) + j) = exp + j by omega]
    exact shifted

variable {F : FloatOps} {ldexp : DWord → Int → DWord}

/-- A rounded significand, scaled. -/
lemma nearest_of_scaled {x : ℚ} {e : Int} (laws : ScaleLaws F ldexp) (pos : 0 ≤ x)
    (w : Within x n (e - 1) rest) (low : -1074 ≤ e) (high : e ≤ 971)
    (leads : e = -1074 ∨ 2 ^ 53 * (2 : ℚ) ^ (e - 1) ≤ x) (lt : x < 2 ^ 53 * (2 : ℚ) ^ e) :
    F64Nearest x (ldexp (F.ofU64D (BitVec.ofNat 64 (roundHalf n rest))) e) := by
  have bits : n < 2 * 2 ^ 53 := by
    refine w.lt_of_lt (lt.trans_eq ?_)
    rw [double_unit]
    norm_num
  have kept := @roundHalf_le n (2 ^ 53) rest bits
  have whole : (BitVec.ofNat 64 (roundHalf n rest)).toNat = roundHalf n rest := by
    rw [BitVec.toNat_ofNat, Nat.mod_eq_of_lt (by omega)]
  have value := laws.ofU64_exact (BitVec.ofNat 64 (roundHalf n rest))
    (by rw [whole]; omega) (by rw [whole]; exact isF64_nat kept)
  rw [whole] at value
  have none : (0 : ℚ) ≤ roundHalf n rest := Nat.cast_nonneg _
  rcases BinaryFormat.rounds_of_within (F := binary64) w low high leads lt with
    ⟨out, full, rfl⟩ | ⟨m', e', rounds, same⟩
  · rw [laws.ldexp_overflow _ _ _ value none (by decide) (by decide)]
    · exact f64Nearest_infinity out
    · intro v finite
      rw [full]
      push_cast
      exact lt_of_isF64 finite
  · have finite := isF64_of_canonical rounds.canonical rounds.le_high
    rw [same] at finite
    have scaled := laws.ldexp_exact _ _ _ value none (by omega) (by omega) finite
    rw [← same] at scaled
    exact f64Nearest_of_rounds pos rounds scaled

/-- The conversion is correct for every number that starts with the bits `m`. When bits follow, `m`
fills 61 bits at least. -/
lemma toF64_nearest {x : ℚ} (laws : ScaleLaws F ldexp) (w : Within x l.m l.exp l.sticky)
    (some : l.m ≠ 0) (fits : l.m < 2 ^ 64) (long : l.sticky → 2 ^ 60 ≤ l.m)
    (low : -100000 ≤ l.exp) (high : l.exp ≤ 100000) : F64Nearest x (l.toF64 F ldexp) := by
  obtain ⟨least, less⟩ := w.lead some
  have pos : 0 ≤ x := (two_zpow_pos _).le.trans least
  have log : l.m.log2 < 64 := (Nat.log2_lt some).mpr fits
  set lz := 63 - l.m.log2 with lzDef
  have expEq : subI64 l.exp lz = l.exp - lz := subI64_eq (by omega) (by omega)
  have leadEq : addI64 (l.exp - lz) 63 = l.exp + l.m.log2 := by
    rw [addI64_eq (by omega) (by omega)]
    omega
  set lead := l.exp + l.m.log2 with leadDef
  have missing : subI64 (-1022) lead = -1022 - lead := subI64_eq (by omega) (by omega)
  have dropEq : addI64 11 (max (-1022 - lead) 0) = 11 + max (-1022 - lead) 0 :=
    addI64_eq (by omega) (by omega)
  unfold LeadBits.toF64
  rw [if_neg some]
  dsimp only
  rw [expEq, leadEq, missing, dropEq]
  by_cases large : 1023 < lead
  · rw [if_pos large]
    exact f64Nearest_infinity (overflow_le.trans ((two_zpow_le (by omega)).trans least))
  rw [if_neg large]
  by_cases tiny : 64 < 11 + max (-1022 - lead) 0
  · rw [if_pos tiny]
    exact f64Nearest_zero pos (less.trans_le (two_zpow_le (by omega)))
  rw [if_neg tiny]
  obtain ⟨k, dropDef⟩ : ∃ k : Nat, 11 + max (-1022 - lead) 0 = k + 1 :=
    ⟨(10 + max (-1022 - lead) 0).toNat, by omega⟩
  have front : l.m * 2 ^ lz < 2 ^ 64 := by
    have below : l.m * 2 ^ lz < 2 ^ (l.m.log2 + 1) * 2 ^ lz :=
      Nat.mul_lt_mul_of_pos_right Nat.lt_log2_self (Nat.two_pow_pos lz)
    rwa [← Nat.pow_add, show l.m.log2 + 1 + lz = 64 by omega] at below
  have short : l.sticky → lz ≤ k := by
    intro more
    have first : 60 ≤ l.m.log2 := (Nat.le_log2 some).mpr (long more)
    omega
  -- The unit is that of the 53rd bit, or the least one.
  set e := l.exp - lz + (k + 1) with unit
  have half : l.exp - lz + k = e - 1 := by omega
  have w' := within_drop w short
  rw [half] at w'
  have scaled := nearest_of_scaled laws pos w' (by omega) (by omega)
    (by
      rw [or_iff_not_imp_left]
      intro normal
      have weight := two_zpow_add_nat (e - 1) 53
      rw [← weight]
      exact (two_zpow_le (by push_cast; omega)).trans least)
    (by
      have weight := two_zpow_add_nat e 53
      rw [← weight]
      exact less.trans_le (two_zpow_le (by push_cast; omega)))
  rw [dropDef, show ((k : Int) + 1).toNat = k + 1 by omega, Nat.shiftLeft_eq,
    dropBits_eq front (by omega) (by omega), addI64_eq (by omega) (by omega), ← unit,
    Nat.add_sub_cancel, toI32, if_pos (by omega)]
  dsimp only
  rw [roundKept_eq]
  exact scaled

/-- The digits of a number that is held exactly, or that goes on behind 40 digits. -/
lemma hexDigitsToF64_nearest {x : ℚ} (laws : ScaleLaws F ldexp) (values : ∀ d ∈ digits, d < 16)
    (lead : digits.head? ≠ some 0) (long : digits ≠ []) (short : digits.length ≤ 41)
    (low : -10000 ≤ scale) (high : scale ≤ 10000)
    (w : Within x (hexOf (digits.take 16)) (scale + 4 * (digits.length - 16 : ℕ))
      ((digits.drop 16).any (· != 0))) :
    F64Nearest x (hexDigitsToF64 F ldexp digits scale) := by
  have first : (digits.take 16).head? ≠ some 0 := by rwa [List.head?_take, if_neg (by decide)]
  have filled : digits.take 16 ≠ [] := by
    rw [Ne, List.take_eq_nil_iff]
    exact fun none => none.elim (by decide) long
  have least := le_hexOf first filled
  have most := @hexOf_lt (digits.take 16) fun d mem => values d (List.mem_of_mem_take mem)
  rw [List.length_take] at least most
  unfold hexDigitsToF64
  rw [leadBits_eq values short low high]
  refine toF64_nearest laws w ?_ ?_ ?_ (by dsimp only; omega) (by dsimp only; omega)
  · exact (Nat.lt_of_lt_of_le (by positivity) least).ne'
  · exact most.trans_le ((Nat.pow_le_pow_right (by decide) (Nat.min_le_left _ _)).trans (by decide))
  · intro more
    have beyond : 16 < digits.length := by
      by_contra! none
      dsimp only at more
      rw [List.drop_eq_nil_of_le none] at more
      cases more
    rw [Nat.min_eq_left beyond.le] at least
    exact least

/-- The weight of the bit before the digits, with or without the sticky digit. -/
lemma top_eq (short : digits.length ≤ 40) :
    let top := addI64 (if sticky then subI64 scale 4 else scale)
      (mulI64 (if sticky then digits ++ [1] else digits).length 4)
    (-10000 ≤ scale → scale ≤ 10000 → top = scale + 4 * digits.length) ∧
      (10000 < scale → 1100 < top) ∧ (scale < -10000 → top < -1200) := by
  have four (n : Nat) (h : n ≤ 41) : mulI64 n 4 = n * 4 := mulI64_eq (by omega) (by omega)
  cases sticky with
  | false =>
    simp only [Bool.false_eq_true, if_false, four _ (show digits.length ≤ 41 by omega)]
    unfold addI64 clampI64 i64Max i64Min
    omega
  | true =>
    have length : (digits ++ [1]).length = digits.length + 1 := by
      rw [List.length_append, List.length_singleton]
    simp only [if_true, length, four _ (show digits.length + 1 ≤ 41 by omega)]
    unfold addI64 subI64 clampI64 i64Max i64Min
    omega

/-- The digits that the parser keeps, with a scale that is exact unless both are far out. -/
lemma hexRunValue_nearest {x : ℚ} {exact : Int} (laws : ScaleLaws F ldexp)
    (values : ∀ d ∈ digits, d < 16) (lead : digits.head? ≠ some 0) (long : digits ≠ [])
    (short : digits.length ≤ 40) (full : sticky → digits.length = 40)
    (w : Within x (hexOf digits) exact sticky)
    (near : scale = exact ∧ -10000 ≤ exact ∧ exact ≤ 10000 ∨ 10000 < scale ∧ 10000 < exact ∨
      scale < -10000 ∧ exact < -10000) :
    F64Nearest x (hexRunValue F ldexp digits sticky scale) := by
  have least := le_hexOf lead long
  have most := hexOf_lt values
  rw [sixteen_pow] at least most
  have some' : hexOf digits ≠ 0 := (Nat.lt_of_lt_of_le (Nat.two_pow_pos _) least).ne'
  have first := (Nat.le_log2 some').mpr least
  have last := (Nat.log2_lt some').mpr most
  obtain ⟨above, below⟩ := w.lead some'
  have pos : 0 ≤ x := (two_zpow_pos _).le.trans above
  have count := List.length_pos_iff.mpr long
  obtain ⟨middle, up, down⟩ := @top_eq digits scale sticky short
  unfold hexRunValue
  dsimp only at middle up down ⊢
  rcases near with ⟨rfl, low, high⟩ | ⟨far, large⟩ | ⟨far, small⟩
  · rw [middle low high]
    by_cases large : 1100 < scale + 4 * digits.length
    · rw [if_pos large]
      exact f64Nearest_infinity (overflow_le.trans ((two_zpow_le (by omega)).trans above))
    rw [if_neg large]
    by_cases tiny : scale + 4 * digits.length < -1200
    · rw [if_pos tiny]
      exact f64Nearest_zero pos (below.trans_le (two_zpow_le (by omega)))
    rw [if_neg tiny]
    cases sticky with
    | false =>
      have kept := w.shift (4 * (digits.length - 16))
      obtain ⟨head, others⟩ := hexOf_split values
      rw [head, others, Bool.false_or] at kept
      rw [if_neg Bool.false_ne_true, if_neg Bool.false_ne_true]
      exact hexDigitsToF64_nearest laws values lead long (by omega) low high
        (by push_cast at kept ⊢; exact kept)
    | true =>
      have all := full rfl
      have kept := w.shift (4 * (digits.length - 16))
      rw [(hexOf_split values).1, Bool.true_or] at kept
      rw [if_pos rfl, if_pos rfl, subI64_eq (by omega) (by omega)]
      refine hexDigitsToF64_nearest laws ?_ ?_ ?_ ?_ (by omega) (by omega) ?_
      · intro d mem
        rcases List.mem_append.mp mem with old | new
        · exact values d old
        · rw [List.mem_singleton.mp new]
          decide
      · rwa [List.head?_append_of_ne_nil _ long]
      · exact List.append_ne_nil_of_left_ne_nil long _
      · rw [List.length_append, List.length_singleton]
        omega
      · rw [List.take_append_of_le_length (by omega), List.drop_append_of_le_length (by omega),
          List.any_append, List.length_append, List.length_singleton, all]
        rw [all] at kept
        have moved : scale - 4 + 4 * ((40 + 1 - 16 : ℕ) : ℤ) = scale + (4 * (40 - 16) : ℕ) := by
          push_cast
          omega
        rw [moved, show [1].any (· != 0) = true from rfl, Bool.or_true]
        exact kept
  · rw [if_pos (up far)]
    exact f64Nearest_infinity (overflow_le.trans ((two_zpow_le (by omega)).trans above))
  · have less := down far
    rw [if_neg (by omega), if_pos less]
    exact f64Nearest_zero pos (below.trans_le (two_zpow_le (by omega)))

end Convert

/-! ## The text of a number -/

/-- The values of digits. -/
def digitValues (base : Nat) (s : List Byte) : List Nat := s.map fun c => (digitOf base c).getD 0

/-- A binary exponent. -/
structure HexExponent where
  mark : Byte
  sign : List Byte
  digits : List Byte
  mark_eq : mark = 112 ∨ mark = 80
  sign_eq : sign = [] ∨ sign = [plusSign] ∨ sign = [minusSign]
  values : ∀ c ∈ digits, (digitOf 10 c).isSome
  nonempty : digits ≠ []

namespace HexExponent

/-- The text of an exponent. -/
def text (x : HexExponent) : List Byte := x.mark :: (x.sign ++ x.digits)

/-- The number that the digits stand for. -/
def magnitude (x : HexExponent) : Nat := Nat.ofDigits 10 (digitValues 10 x.digits).reverse

/-- The exponent. -/
def value (x : HexExponent) : Int := if x.sign = [minusSign] then -x.magnitude else x.magnitude

end HexExponent

/-- A hexadecimal number, in its parts: digits with an optional point, and an optional exponent. -/
structure HexNumber where
  whole : List Byte
  point : Bool
  frac : List Byte
  exponent : Option HexExponent
  values : ∀ c ∈ whole ++ frac, (digitOf 16 c).isSome
  nonempty : whole ++ frac ≠ []
  frac_eq : point = false → frac = []

namespace HexNumber

/-- The text before the exponent. -/
def mantissa (h : HexNumber) : List Byte :=
  h.whole ++ if h.point then pointByte :: h.frac else []

/-- The text of a number. -/
def text (h : HexNumber) : List Byte := h.mantissa ++ h.exponent.elim [] HexExponent.text

/-- The number. -/
def value (h : HexNumber) : ℚ :=
  (Nat.ofDigits 16 (digitValues 16 (h.whole ++ h.frac)).reverse : ℕ) / 16 ^ h.frac.length *
    2 ^ h.exponent.elim 0 HexExponent.value

/-- The number does not go on in what follows it. -/
def Stops (h : HexNumber) (rest : List Byte) : Prop :=
  match h.exponent with
  | some _ => ∀ c ∈ rest.head?, digitOf 10 c = none
  | none =>
    (∀ c ∈ rest.head?, digitOf 16 c = none ∧ (h.point = false → c ≠ pointByte)) ∧
      ∀ x : HexExponent, ¬x.text <+: rest

end HexNumber

/-! ## The digits of a number -/

namespace HexRun

/-- The locals after digits `ds`, of which `f` stand behind the point. -/
structure Holds (r : HexRun) (ds : List Nat) (f : Nat) : Prop where
  any : r.any = true ↔ ds ≠ []
  values : ∀ d ∈ r.digits, d < 16
  lead : r.digits.head? ≠ some 0
  short : r.digits.length ≤ 40
  frac_le : f ≤ ds.length
  dropped : ∃ x : Nat, (0 < x → r.digits.length = 40) ∧ x ≤ ds.length ∧
    hexOf ds / 2 ^ (4 * x) = hexOf r.digits ∧
    r.sticky = decide (hexOf ds % 2 ^ (4 * x) ≠ 0) ∧ r.scale = 4 * x - 4 * f

variable {r : HexRun} {ds : List Nat} {f d : Nat} {s t : List Byte}

/-- Before the first digit nothing is held. -/
lemma holds_start : start.Holds [] 0 where
  any := by decide
  values := nofun
  lead := nofun
  short := Nat.zero_le _
  frac_le := le_rfl
  dropped := ⟨0, nofun, le_rfl, by decide, by decide, by decide⟩

/-- A digit that is kept or dropped, without its place behind the point. -/
lemma Holds.keep (h : r.Holds ds f) (digit : d < 16) (few : ds.length < 2 ^ 59) :
    ({ r with any := true }.keep d).Holds (ds ++ [d]) f := by
  obtain ⟨x, full, le, whole, sticky, scale⟩ := h.dropped
  have frac := h.frac_le
  have short := h.short
  have any : true = true ↔ ds ++ [d] ≠ [] := by simp
  have length : (ds ++ [d]).length = ds.length + 1 := by
    rw [List.length_append, List.length_singleton]
  unfold HexRun.keep
  dsimp only
  by_cases zero : r.digits = [] ∧ d = 0
  · obtain ⟨empty, rfl⟩ := zero
    have none : x = 0 := by
      by_contra some
      have := full (Nat.pos_of_ne_zero some)
      rw [empty] at this
      cases this
    subst none
    rw [empty, Nat.mul_zero, pow_zero, Nat.div_one, hexOf_nil] at whole
    rw [if_pos ⟨empty, rfl⟩]
    refine ⟨any, h.values, h.lead, short, by omega, 0, full, by omega, ?_, ?_, scale⟩
    · rw [hexOf_snoc, whole, empty]
      rfl
    · rw [hexOf_snoc, whole]
      rw [whole] at sticky
      exact sticky
  rw [if_neg zero]
  by_cases room : r.digits.length < hexDigitsKept
  · have none : x = 0 := by
      by_contra some
      have := full (Nat.pos_of_ne_zero some)
      rw [this] at room
      exact absurd room (by decide)
    subst none
    rw [Nat.mul_zero, pow_zero, Nat.div_one] at whole
    rw [Nat.mul_zero, pow_zero, Nat.mod_one] at sticky
    rw [if_pos room]
    refine ⟨any, ?_, ?_, ?_, by omega, 0, nofun, by omega, ?_, ?_, scale⟩
    · intro e mem
      rcases List.mem_append.mp mem with old | new
      · exact h.values e old
      · rwa [List.mem_singleton.mp new]
    · cases e : r.digits with
      | nil =>
        intro first
        exact zero ⟨e, Option.some.inj first⟩
      | cons c cs =>
        have lead := h.lead
        rw [e] at lead
        exact lead
    · rw [List.length_append, List.length_singleton]
      exact room
    · rw [Nat.mul_zero, pow_zero, Nat.div_one, hexOf_snoc, hexOf_snoc, whole]
    · rw [Nat.mul_zero, pow_zero, Nat.mod_one]
      exact sticky
  · have all : r.digits.length = 40 := by
      have : hexDigitsKept = 40 := rfl
      omega
    have power : 2 ^ (4 * (x + 1)) = 16 * 2 ^ (4 * x) := by
      rw [Nat.mul_succ, Nat.pow_add, Nat.mul_comm]
    rw [if_neg room]
    refine ⟨any, h.values, h.lead, short, by omega, x + 1, fun _ => all, by omega, ?_, ?_, ?_⟩
    · rw [hexOf_snoc, power, ← Nat.div_div_eq_div_mul, ← whole]
      congr 1
      omega
    · have mod : (16 * hexOf ds + d) % (16 * 2 ^ (4 * x)) = 16 * (hexOf ds % 2 ^ (4 * x)) + d := by
        rw [Nat.mod_mul, Nat.mul_add_mod, Nat.mod_eq_of_lt digit, Nat.mul_add_div (by decide),
          Nat.div_eq_of_lt digit, Nat.add_zero, Nat.add_comm]
      rw [hexOf_snoc, power, mod, sticky, Bool.eq_iff_iff, Bool.or_eq_true, decide_eq_true_iff,
        bne_iff_ne, decide_eq_true_iff]
      omega
    · rw [scale, addI64_eq (by omega) (by omega)]
      push_cast
      omega

@[simp] lemma keep_seenPoint : (r.keep d).seenPoint = r.seenPoint := by
  unfold HexRun.keep
  split_ifs <;> rfl

@[simp] lemma digit_seenPoint : (r.digit d).seenPoint = r.seenPoint := by
  unfold HexRun.digit
  dsimp only
  split <;> simp

/-- A digit. -/
lemma Holds.digit (h : r.Holds ds f) (digit : d < 16) (few : ds.length < 2 ^ 59) :
    (r.digit d).Holds (ds ++ [d]) (f + if r.seenPoint then 1 else 0) := by
  have kept := h.keep digit few
  have frac := h.frac_le
  unfold HexRun.digit
  dsimp only
  rw [keep_seenPoint]
  split
  · obtain ⟨x, full, le, whole, sticky, scale⟩ := kept.dropped
    have length : (ds ++ [d]).length = ds.length + 1 := by
      rw [List.length_append, List.length_singleton]
    refine ⟨kept.any, kept.values, kept.lead, kept.short, by omega, x, full, le, whole, sticky, ?_⟩
    rw [scale, subI64_eq (by omega) (by omega)]
    push_cast
    omega
  · exact kept

/-- The point is no digit. -/
lemma digitOf_pointByte : digitOf 16 pointByte = none := by decide

/-- Digits and what follows them. -/
lemma Holds.read_digits (h : r.Holds ds f) (values : ∀ c ∈ s, (digitOf 16 c).isSome)
    (few : ds.length + s.length ≤ 2 ^ 59) :
    ∃ r' : HexRun, r.read (s ++ t) = ((r'.read t).1, (r'.read t).2 + s.length) ∧
      r'.Holds (ds ++ digitValues 16 s) (f + if r.seenPoint then s.length else 0) ∧
      r'.seenPoint = r.seenPoint := by
  induction s generalizing r ds f with
  | nil => exact ⟨r, rfl, by simpa [digitValues] using h, rfl⟩
  | cons c s ih =>
    rw [List.length_cons] at few
    obtain ⟨d, digit⟩ := Option.isSome_iff_exists.mp (values c List.mem_cons_self)
    have next := h.digit (digitOf_lt digit) (by omega)
    have length : (ds ++ [d]).length = ds.length + 1 := by
      rw [List.length_append, List.length_singleton]
    obtain ⟨r', read, holds, seen⟩ := ih next (fun c mem => values c (List.mem_cons_of_mem _ mem))
      (by omega)
    have digits : digitValues 16 (c :: s) = d :: digitValues 16 s := by
      rw [digitValues, List.map_cons, digit]
      rfl
    refine ⟨r', ?_, ?_, seen.trans digit_seenPoint⟩
    · have other : ¬(c = pointByte ∧ r.seenPoint = false) := by
        rintro ⟨rfl, _⟩
        rw [digitOf_pointByte] at digit
        cases digit
      rw [List.cons_append, HexRun.read, if_neg other, digit]
      dsimp only
      rw [read]
      rfl
    · rw [digits, ← List.singleton_append, ← List.append_assoc]
      rw [digit_seenPoint] at holds
      cases seenPoint : r.seenPoint with
      | false => simpa [seenPoint] using holds
      | true => simpa [seenPoint, Nat.add_assoc, Nat.add_comm 1] using holds

/-- Where the number does not go on. -/
lemma read_stop (h : ∀ c ∈ t.head?, digitOf 16 c = none ∧ (r.seenPoint = false → c ≠ pointByte)) :
    r.read t = (r, 0) := by
  cases t with
  | nil => rfl
  | cons c t =>
    obtain ⟨none, other⟩ := h c rfl
    rw [HexRun.read, if_neg fun point => other point.2 point.1, none]

/-- The point changes no digits. -/
lemma Holds.point (h : r.Holds ds f) : { r with seenPoint := true }.Holds ds f :=
  ⟨h.any, h.values, h.lead, h.short, h.frac_le, h.dropped⟩

/-- The digits of a number. -/
lemma read_mantissa (h : HexNumber)
    (stop : ∀ c ∈ t.head?, digitOf 16 c = none ∧ (h.point = false → c ≠ pointByte))
    (few : h.mantissa.length ≤ 2 ^ 59) :
    ∃ r : HexRun, start.read (h.mantissa ++ t) = (r, h.mantissa.length) ∧
      r.Holds (digitValues 16 (h.whole ++ h.frac)) h.frac.length := by
  have wholes : ∀ c ∈ h.whole, (digitOf 16 c).isSome :=
    fun c mem => h.values c (List.mem_append_left _ mem)
  have fracs : ∀ c ∈ h.frac, (digitOf 16 c).isSome :=
    fun c mem => h.values c (List.mem_append_right _ mem)
  have all : digitValues 16 (h.whole ++ h.frac) =
      digitValues 16 h.whole ++ digitValues 16 h.frac := List.map_append
  unfold HexNumber.mantissa at few ⊢
  cases point : h.point with
  | false =>
    simp only [point, Bool.false_eq_true, if_false, List.append_nil] at few ⊢
    obtain ⟨r, read, holds, seen⟩ := holds_start.read_digits (t := t) wholes (by simpa using few)
    have stops : r.read t = (r, 0) :=
      read_stop fun c mem => ⟨(stop c mem).1, fun _ => (stop c mem).2 point⟩
    rw [stops, Nat.zero_add] at read
    rw [h.frac_eq point, List.append_nil]
    exact ⟨r, read, holds⟩
  | true =>
    simp only [point, if_true, List.length_append, List.length_cons] at few ⊢
    obtain ⟨r, read, holds, seen⟩ := holds_start.read_digits
      (t := pointByte :: (h.frac ++ t)) wholes (by rw [List.length_nil]; omega)
    rw [List.nil_append] at holds
    obtain ⟨r', read', holds', seen'⟩ := holds.point.read_digits (t := t) fracs
      (by rw [digitValues, List.length_map]; omega)
    have stops : r'.read t = (r', 0) :=
      read_stop fun c mem => ⟨(stop c mem).1, by rw [seen']; nofun⟩
    rw [stops, Nat.zero_add] at read'
    refine ⟨r', ?_, ?_⟩
    · have flips : r.read (pointByte :: (h.frac ++ t)) = (r', h.frac.length + 1) := by
        rw [HexRun.read, if_pos ⟨rfl, seen⟩, read']
      rw [List.append_assoc, List.cons_append, read, flips, Nat.add_comm h.whole.length]
    · rw [all]
      simpa [start] using holds'

end HexRun

/-! ## The exponent of a number -/

section Exponent

variable {m t rest : List Byte} {scale : Int} {h : HexNumber}

/-- A digit is below its base. -/
lemma digitOf_getD_lt {base : Nat} (c : Byte) (pos : 0 < base) :
    (digitOf base c).getD 0 < base := by
  cases e : digitOf base c with
  | none => exact pos
  | some d => exact digitOf_lt e

/-- The decimal digits saturate. -/
lemma decimalI64_eq (s : List Byte) :
    decimalI64 s =
      min ((Nat.ofDigits 10 (digitValues 10 s).reverse : ℕ) : ℤ) 9223372036854775807 := by
  induction s using List.reverseRecOn with
  | nil => decide
  | append_singleton s c ih =>
    have digit : (digitOf 10 c).getD 0 < 10 := digitOf_getD_lt c (by decide)
    have last : digitValues 10 (s ++ [c]) = digitValues 10 s ++ [(digitOf 10 c).getD 0] := by
      rw [digitValues, List.map_append]
      rfl
    have fed : decimalI64 (s ++ [c]) =
        addI64 (mulI64 (decimalI64 s) 10) ((digitOf 10 c).getD 0) := by
      rw [decimalI64, List.foldl_append]
      rfl
    rw [fed, ih, last, List.reverse_append, List.reverse_singleton, List.singleton_append,
      Nat.ofDigits_cons]
    generalize (digitOf 10 c).getD 0 = d at digit ⊢
    generalize Nat.ofDigits 10 (digitValues 10 s).reverse = n
    unfold addI64 mulI64 clampI64 i64Max i64Min
    push_cast
    omega

/-- The sign of an exponent. -/
lemma readSign_exponent (x : HexExponent) :
    readSign (x.sign ++ x.digits ++ rest) = (decide (x.sign = [minusSign]), x.sign.length) := by
  rcases x.sign_eq with none | plus | minus
  · obtain ⟨c, s, digits⟩ := List.exists_cons_of_ne_nil x.nonempty
    have digit := x.values c (by rw [digits]; exact List.mem_cons_self)
    have notMinus : c ≠ minusSign := by
      rintro rfl
      exact absurd digit (by decide)
    have notPlus : c ≠ plusSign := by
      rintro rfl
      exact absurd digit (by decide)
    rw [none, digits]
    simp [readSign, notMinus, notPlus]
  · rw [plus]
    rfl
  · rw [minus]
    simp [readSign]

/-- The exponent is read. -/
lemma readHexExponent_exponent (x : HexExponent) (stop : ∀ c ∈ rest.head?, digitOf 10 c = none) :
    readHexExponent (m ++ (x.text ++ rest)) m.length scale =
      (if x.sign = [minusSign] then subI64 scale (decimalI64 x.digits)
        else addI64 scale (decimalI64 x.digits), m.length + x.text.length) := by
  have mark : (m ++ (x.text ++ rest))[m.length]? = some x.mark := by
    rw [List.getElem?_append_right le_rfl, Nat.sub_self]
    rfl
  have behind : (m ++ (x.text ++ rest)).drop (m.length + 1) = x.sign ++ x.digits ++ rest :=
    List.drop_length_add_append 1
  have digits : ((m ++ (x.text ++ rest)).drop (m.length + 1 + x.sign.length)).takeWhile
      (fun c => (digitOf 10 c).isSome) = x.digits := by
    rw [← List.drop_drop, behind, List.append_assoc, List.drop_left,
      List.takeWhile_append_of_pos x.values]
    cases rest with
    | nil => rw [List.takeWhile_nil, List.append_nil]
    | cons c rest =>
      rw [List.takeWhile_cons_of_neg (by rw [stop c rfl]; exact Bool.false_ne_true),
        List.append_nil]
  unfold readHexExponent
  rw [mark, if_pos (x.mark_eq.imp (congrArg some) (congrArg some)), behind, readSign_exponent]
  dsimp only
  rw [digits, if_neg x.nonempty]
  simp only [decide_eq_true_eq, HexExponent.text, List.length_cons, List.length_append,
    Prod.mk.injEq, true_and]
  omega

/-- No exponent is read. -/
lemma readHexExponent_none (stop : ∀ x : HexExponent, ¬x.text <+: rest) :
    readHexExponent (m ++ rest) m.length scale = (scale, m.length) := by
  have first : (m ++ rest)[m.length]? = rest.head? := by
    rw [List.getElem?_append_right le_rfl, Nat.sub_self, List.head?_eq_getElem?]
  unfold readHexExponent
  rw [first]
  split
  next marked =>
    obtain ⟨c, u, rfl⟩ : ∃ c u, rest = c :: u := by
      cases rest with
      | nil => exact absurd marked (by simp)
      | cons c u => exact ⟨c, u, rfl⟩
    have behind : (m ++ c :: u).drop (m.length + 1) = u := List.drop_length_add_append 1
    dsimp only
    rw [← List.drop_drop, behind]
    have none : ((u.drop (readSign u).2).takeWhile fun c => (digitOf 10 c).isSome) = [] := by
      by_contra some
      -- The mark, the sign and the digits would be an exponent.
      obtain ⟨sign, _⟩ := readSign_spec u
      refine stop ⟨c, u.take (readSign u).2, _, by simpa using marked, sign,
        fun c mem => List.mem_takeWhile_imp (p := fun c => (digitOf 10 c).isSome) mem, some⟩ ?_
      rw [HexExponent.text, List.cons_prefix_cons]
      refine ⟨rfl, ?_⟩
      conv_rhs => rw [← List.take_append_drop (readSign u).2 u]
      exact (List.prefix_append_right_inj _).mpr (List.takeWhile_prefix _)
    rw [none, if_pos rfl]
  next => rfl

end Exponent

/-! ## Correct rounding -/

section Rounding

variable {F : FloatOps} {ldexp : DWord → Int → DWord} {h : HexNumber} {rest : List Byte}

/-- What the number's exponent adds to the scale. -/
def exponentScale (x : Option HexExponent) (scale : Int) : Int :=
  x.elim scale fun x => if x.sign = [minusSign] then subI64 scale (decimalI64 x.digits)
    else addI64 scale (decimalI64 x.digits)

/-- The parser reads a number to its end. -/
lemma parseHexFloat_text (stops : h.Stops rest) (few : h.mantissa.length ≤ 2 ^ 59) :
    ∃ r : HexRun, r.Holds (digitValues 16 (h.whole ++ h.frac)) h.frac.length ∧
      parseHexFloat F ldexp (h.text ++ rest) = some
        (if r.digits = [] then f64Zero
          else hexRunValue F ldexp r.digits r.sticky (exponentScale h.exponent r.scale),
          h.text.length) := by
  have ends : ∀ c ∈ (h.exponent.elim [] HexExponent.text ++ rest).head?,
      digitOf 16 c = none ∧ (h.point = false → c ≠ pointByte) := by
    intro c mem
    unfold HexNumber.Stops at stops
    cases e : h.exponent with
    | some x =>
      rw [e] at mem
      obtain rfl : x.mark = c := Option.some.inj mem
      rcases x.mark_eq with mark | mark
      · rw [mark]
        exact ⟨by decide, fun _ => by decide⟩
      · rw [mark]
        exact ⟨by decide, fun _ => by decide⟩
    | none =>
      rw [e] at mem stops
      exact stops.1 c mem
  obtain ⟨r, read, holds⟩ := HexRun.read_mantissa h ends few
  refine ⟨r, holds, ?_⟩
  have scaled : readHexExponent (h.text ++ rest) h.mantissa.length r.scale =
      (exponentScale h.exponent r.scale, h.text.length) := by
    unfold HexNumber.Stops at stops
    rw [HexNumber.text, List.append_assoc, List.length_append]
    cases e : h.exponent with
    | some x =>
      rw [e] at stops
      exact readHexExponent_exponent x stops
    | none =>
      rw [e] at stops
      exact readHexExponent_none stops.2
  have any : r.any = true := holds.any.mpr (by
    rw [digitValues, Ne, List.map_eq_nil_iff]
    exact h.nonempty)
  rw [← List.append_assoc] at read
  unfold parseHexFloat
  rw [HexNumber.text, read]
  dsimp only
  rw [any, if_neg (by decide), ← HexNumber.text, scaled]
  dsimp only
  split <;> rfl

/-- The saturating arithmetic of the scale is exact unless the exponent is far out. -/
lemma exponentScale_near {scale : Int} (low : -2 ^ 61 ≤ scale) (high : scale ≤ 2 ^ 61) :
    let exact := scale + h.exponent.elim 0 HexExponent.value
    let found := exponentScale h.exponent scale
    found = exact ∧ -10000 ≤ exact ∧ exact ≤ 10000 ∨ 10000 < found ∧ 10000 < exact ∨
      found < -10000 ∧ exact < -10000 := by
  cases e : h.exponent with
  | none =>
    simp only [exponentScale, Option.elim_none]
    omega
  | some x =>
    simp only [exponentScale, Option.elim_some, HexExponent.value, decimalI64_eq]
    rw [← HexExponent.magnitude]
    generalize x.magnitude = n
    split
    · unfold subI64 clampI64 i64Max i64Min
      omega
    · unfold addI64 clampI64 i64Max i64Min
      omega

/-- Hex floats are correctly rounded: a number of less than `2 ^ 59` bytes is read to its end, as
the double that is nearest to it, ties to even. -/
theorem hexFloat_nearest (laws : ScaleLaws F ldexp) (h : HexNumber) (rest : List Byte)
    (stops : h.Stops rest) (short : (h.text ++ rest).length < 2 ^ 59) :
    ∃ d, parseHexFloat F ldexp (h.text ++ rest) = some (d, h.text.length) ∧
      F64Nearest h.value d := by
  have text : h.mantissa.length ≤ (h.text ++ rest).length := by
    rw [HexNumber.text, List.length_append, List.length_append]
    omega
  have count : (digitValues 16 (h.whole ++ h.frac)).length ≤ h.mantissa.length := by
    have none := h.frac_eq
    rw [digitValues, List.length_map, List.length_append, HexNumber.mantissa, List.length_append]
    cases point : h.point with
    | false => simp [none point]
    | true => simp
  obtain ⟨r, holds, parsed⟩ := @parseHexFloat_text F ldexp h rest stops (by omega)
  refine ⟨_, parsed, ?_⟩
  obtain ⟨k, full, le, whole, sticky, scale⟩ := holds.dropped
  have frac := holds.frac_le
  set n := hexOf (digitValues 16 (h.whole ++ h.frac)) with digits
  have value : h.value =
      n * (2 : ℚ) ^ (h.exponent.elim 0 HexExponent.value - 4 * h.frac.length) := by
    have places : (16 : ℚ) ^ h.frac.length = 2 ^ (4 * h.frac.length : ℤ) := by
      rw [zpow_mul, zpow_natCast]
      norm_num
    rw [HexNumber.value, places, zpow_sub₀ (by norm_num), ← hexOf, ← digits]
    ring
  -- Either no digit is kept and the value is 0, or the kept bits and the sticky one are rounded.
  split
  next empty =>
    have none : k = 0 := by
      by_contra some
      have := full (Nat.pos_of_ne_zero some)
      rw [empty] at this
      cases this
    rw [none, Nat.mul_zero, pow_zero, Nat.div_one, empty, hexOf_nil] at whole
    rw [value, whole, Nat.cast_zero, zero_mul]
    exact f64Nearest_zero le_rfl (two_zpow_pos _)
  next some =>
    have bits := (within_self (m := n)
      (e := h.exponent.elim 0 HexExponent.value - 4 * h.frac.length)).shift (4 * k)
    rw [whole, Bool.false_or, ← sticky, ← value] at bits
    have near := @exponentScale_near h r.scale (by omega) (by omega)
    have moved : h.exponent.elim 0 HexExponent.value - 4 * h.frac.length + (4 * k : ℕ) =
        r.scale + h.exponent.elim 0 HexExponent.value := by
      push_cast
      omega
    rw [moved] at bits
    refine hexRunValue_nearest laws holds.values holds.lead some holds.short ?_ bits near
    intro more
    refine full (Nat.pos_of_ne_zero fun none => ?_)
    rw [sticky, none, Nat.mul_zero, pow_zero, Nat.mod_one] at more
    cases more

/-- `1.8p3`. -/
theorem hexFloat_nearest_twelve :
    ∃ d, parseHexFloat softOps softLdexp [49, 46, 56, 112, 51] = some (d, 5) ∧
      F64Nearest 12 d := by
  have exponent : (if ([] : List Byte) = [minusSign]
      then -((Nat.ofDigits 10 (digitValues 10 [51]).reverse : ℕ) : ℤ)
      else (Nat.ofDigits 10 (digitValues 10 [51]).reverse : ℕ)) = 3 := by decide
  have digits : Nat.ofDigits 16 (digitValues 16 ([49] ++ [56])).reverse = 24 := by decide
  have value : ((24 : ℕ) : ℚ) / 16 ^ [(56 : Byte)].length * 2 ^ (3 : ℤ) = 12 := by norm_num
  rw [← value, ← digits, ← exponent]
  exact hexFloat_nearest scaleLaws_soft
    ⟨[49], true, [56], some ⟨112, [], [51], Or.inl rfl, Or.inl rfl, by decide, by decide⟩,
      by decide, by decide, nofun⟩ [] nofun (by decide)

end Rounding

end Qcvm.Stdlib

import Mathlib.Data.List.TakeWhile
import Mathlib.Data.Nat.Digits.Lemmas
import Qcvm.Stdlib.Digits

/-!
# Integers as text

`strtol` and `strtoul` of `stdlib/convert.rs` with the parser they share, and the builtins that print
and read integers. What C says of the two functions is stated over the texts of the expected form
(`Numeral.Form`): the subject is the longest of them at the start of the string, and its value is that
of all its digits.
-/

namespace Qcvm.Stdlib

/-- `0`. -/
def zeroDigit : Byte := 48

/-- `+`. -/
def plusSign : Byte := 43

/-- `-`. -/
def minusSign : Byte := 45

/-- `is_c_space`. -/
def isCSpace (c : Byte) : Bool := c = 32 || c = 9 || c = 10 || c = 11 || c = 12 || c = 13

/-- The sign a text starts with: whether it is a minus, and how many bytes it takes. -/
def readSign (t : List Byte) : Bool × Nat :=
  match t.head? with
  | some c => if c = minusSign then (true, 1) else if c = plusSign then (false, 1) else (false, 0)
  | none => (false, 0)

/-- `has_hex_prefix`: `0x` with a hex digit after it. -/
def hasHexPrefix (t : List Byte) : Bool :=
  t[0]? = some zeroDigit && (t[1]? = some 120 || t[1]? = some 88)
    && (t[2]?.bind (digitOf 16)).isSome

/-- The base of the digits that follow the sign. -/
def selectBase (base : Nat) (t : List Byte) : Nat :=
  if base = 0 then if hasHexPrefix t then 16 else if t.head? = some zeroDigit then 8 else 10
  else base

/-- The length of the prefix that follows the sign. -/
def prefixLength (base : Nat) (t : List Byte) : Nat :=
  if selectBase base t = 16 ∧ hasHexPrefix t then 2 else 0

/-- The locals of the digits loop of `parse_c_integer`. -/
structure DigitRun where
  value : Nat
  overflow : Bool
  digits : Nat
  deriving Repr, DecidableEq

/-- A result of `u64` arithmetic, if there was no overflow. -/
def checkedU64 (n : Nat) : Option Nat := if n < 2 ^ 64 then some n else none

/-- `value * base + d` in checked arithmetic; after an overflow the value is kept. -/
def DigitRun.feed (base : Nat) (r : DigitRun) (d : Nat) : DigitRun :=
  match (checkedU64 (r.value * base)).bind fun v => checkedU64 (v + d) with
  | some v => { r with value := v, digits := r.digits + 1 }
  | none => { r with overflow := true, digits := r.digits + 1 }

/-- The digits loop of `parse_c_integer`. -/
def readDigits (base : Nat) (r : DigitRun) : List Byte → DigitRun
  | [] => r
  | c :: s =>
    match digitOf base c with
    | none => r
    | some d => readDigits base (r.feed base d) s

/-- What `parse_c_integer` returns. -/
structure CInteger where
  negative : Bool
  value : Nat
  overflow : Bool
  used : Nat
  deriving Repr, DecidableEq

/-- `parse_c_integer`. -/
def parseCInteger (s : List Byte) (base : Nat) : CInteger :=
  let spaces := (s.takeWhile isCSpace).length
  let sign := readSign (s.drop spaces)
  let t := s.drop (spaces + sign.2)
  let i := spaces + sign.2 + prefixLength base t
  let run := readDigits (selectBase base t) ⟨0, false, 0⟩ (s.drop i)
  ⟨sign.1, run.value, run.overflow, if run.digits = 0 then 0 else i + run.digits⟩

/-- `strtol`: the value and the bytes it used. -/
def strtol (s : List Byte) (base : Nat) : Int × Nat :=
  let r := parseCInteger s base
  let value : Int := match r.negative, r.overflow with
    | false, true => i64Max
    | true, true => i64Min
    | false, false => if (r.value : Int) ≤ i64Max then r.value else i64Max
    | true, false => if i64Min ≤ 0 - (r.value : Int) then 0 - (r.value : Int) else i64Min
  (value, r.used)

/-- `strtoul`. -/
def strtoul (s : List Byte) (base : Nat) : Nat × Nat :=
  let r := parseCInteger s base
  let value := if r.overflow then 2 ^ 64 - 1
    else if r.negative then (2 ^ 64 - r.value) % 2 ^ 64
    else r.value
  (value, r.used)

/-- The value `stoi` returns. -/
def stoi (s : List Byte) : Word := BitVec.ofInt 32 (strtol s 0).1

/-- The value `stoh` returns. -/
def stoh (s : List Byte) : Word := BitVec.ofNat 32 (strtoul s 16).1

/-- The lowercase digit of a value. -/
def digitByte (d : Nat) : Byte := if d < 10 then BitVec.ofNat 8 (48 + d) else BitVec.ofNat 8 (87 + d)

/-- A number in a base, without leading zeros. -/
def numberText (base n : Nat) : List Byte :=
  if n = 0 then [zeroDigit] else (Nat.digits base n).reverse.map digitByte

/-- `itos`. -/
def itos (v : Word) : List Byte :=
  if v.toInt < 0 then minusSign :: numberText 10 v.toInt.natAbs else numberText 10 v.toInt.natAbs

/-- `htos`: padded with zeros to eight digits. -/
def htos (v : Word) : List Byte :=
  List.replicate (8 - (numberText 16 v.toNat).length) zeroDigit ++ numberText 16 v.toNat

/-! ## The expected form -/

/-- A number as C reads it, in its parts. -/
structure Numeral where
  sign : List Byte
  lead : List Byte
  digits : List Byte
  radix : Nat

namespace Numeral

/-- The text of a number. -/
def text (n : Numeral) : List Byte := n.sign ++ (n.lead ++ n.digits)

/-- The number the digits stand for. -/
def magnitude (n : Numeral) : Nat :=
  Nat.ofDigits n.radix (n.digits.map fun c => (digitOf n.radix c).getD 0).reverse

/-- The number with its sign. -/
def value (n : Numeral) : Int := if n.sign = [minusSign] then -n.magnitude else n.magnitude

/-- The expected form of a number in a base: an optional sign, `0x` in front of hexadecimal digits if the
base is 16 or is found from the text, and at least one digit. Base 0 is octal if the digits start with
a zero and decimal if they do not. -/
structure Form (base : Nat) (n : Numeral) : Prop where
  sign : n.sign = [] ∨ n.sign = [plusSign] ∨ n.sign = [minusSign]
  lead : n.lead = [] ∧ n.radix = (if base = 0 then if n.digits.head? = some zeroDigit then 8 else 10
      else base) ∨
    (n.lead = [zeroDigit, 120] ∨ n.lead = [zeroDigit, 88]) ∧ (base = 0 ∨ base = 16) ∧ n.radix = 16
  digits : n.digits ≠ []
  values : ∀ c ∈ n.digits, (digitOf n.radix c).isSome

/-- What C's `strtol` returns for a number: the closest value that fits. -/
def clamped (n : Numeral) : Int := clampI64 n.value

/-- What C's `strtoul` returns for a number: the value modulo the size of the type, or the largest value
if the magnitude does not fit. -/
def unsigned (n : Numeral) : Nat :=
  if 2 ^ 64 ≤ n.magnitude then 2 ^ 64 - 1 else (n.value % 2 ^ 64).toNat

/-- The subject of a text: the longest number at its start. -/
structure Subject (base : Nat) (t : List Byte) (n : Numeral) : Prop where
  form : n.Form base
  starts : n.text <+: t
  longest : ∀ m : Numeral, m.Form base → m.text <+: t → m.text.length ≤ n.text.length

end Numeral

variable {base radix : Nat} {s t u : List Byte} {n m : Numeral}

/-! ## The digits -/

/-- The loop's locals after digits that stand for `whole`. -/
def DigitRun.Holds (r : DigitRun) (whole : Nat) : Prop :=
  (r.overflow = true ↔ 2 ^ 64 ≤ whole) ∧ (r.overflow = false → r.value = whole)

lemma DigitRun.Holds.feed {r : DigitRun} {whole : Nat} (h : r.Holds whole) (pos : 0 < base) (d : Nat) :
    (r.feed base d).Holds (whole * base + d) := by
  have grows : whole ≤ whole * base + d :=
    (Nat.le_mul_of_pos_right whole pos).trans (Nat.le_add_right _ d)
  obtain ⟨large_iff, exact⟩ := h
  unfold DigitRun.feed
  cases e : r.overflow with
  | true =>
    -- What is fed to an accumulator that has overflowed does not matter.
    have large := (large_iff.mp e).trans grows
    split
    next => exact ⟨⟨fun _ => large, fun _ => rfl⟩, fun no => Bool.noConfusion no⟩
    next => exact ⟨⟨fun _ => large, fun _ => rfl⟩, fun no => Bool.noConfusion no⟩
  | false =>
    rw [exact e]
    split
    next v fits =>
      obtain ⟨w, first, second⟩ := Option.bind_eq_some_iff.mp fits
      unfold checkedU64 at first second
      split at first
      next =>
        cases first
        split at second
        next lt =>
          cases second
          exact ⟨⟨fun yes => Bool.noConfusion yes, fun le => by omega⟩, fun _ => rfl⟩
        next => cases second
      next => cases first
    next none =>
      refine ⟨⟨fun _ => ?_, fun _ => rfl⟩, fun no => Bool.noConfusion no⟩
      by_contra small
      unfold checkedU64 at none
      rw [if_pos (by omega), Option.bind_some, if_pos (by omega)] at none
      cases none

/-- The loop reads the longest run of digits of the base. -/
lemma readDigits_spec {r : DigitRun} {whole : Nat} (h : r.Holds whole) (pos : 0 < base)
    (s : List Byte) :
    (readDigits base r s).digits = r.digits + (s.takeWhile fun c => (digitOf base c).isSome).length ∧
      (readDigits base r s).Holds ((s.takeWhile fun c => (digitOf base c).isSome).foldl
        (fun v c => v * base + (digitOf base c).getD 0) whole) := by
  induction s generalizing r whole with
  | nil => exact ⟨rfl, h⟩
  | cons c s ih =>
    unfold readDigits
    cases e : digitOf base c with
    | none =>
      rw [List.takeWhile_cons_of_neg (by rw [e]; decide)]
      exact ⟨rfl, h⟩
    | some d =>
      have count : (r.feed base d).digits = r.digits + 1 := by
        unfold DigitRun.feed
        split
        next => rfl
        next => rfl
      obtain ⟨digits, holds⟩ := ih (h.feed pos d)
      rw [List.takeWhile_cons_of_pos (by rw [e]; rfl), List.length_cons, List.foldl_cons, e]
      refine ⟨?_, holds⟩
      dsimp only
      rw [digits, count, Nat.add_assoc, Nat.add_comm 1]

/-- Feeding the digits one by one gives the number they stand for. -/
lemma foldl_eq_ofDigits (base : Nat) (f : Byte → Nat) (s : List Byte) :
    s.foldl (fun v c => v * base + f c) 0 = Nat.ofDigits base (s.map f).reverse := by
  rw [Nat.ofDigits_eq_foldr, List.foldr_reverse, List.foldl_map]
  congr 1
  funext v c
  rw [Nat.add_comm, Nat.mul_comm]
  rfl

/-! ## Reading a text of the expected form -/

/-- A digit is neither a sign nor white space. -/
lemma digit_ne {c : Byte} (h : (digitOf radix c).isSome) :
    c ≠ plusSign ∧ c ≠ minusSign ∧ isCSpace c = false := by
  obtain ⟨d, e⟩ := Option.isSome_iff_exists.mp h
  have digit : (digitValue c).isSome := by rw [(digitOf_eq_some.mp e).1]; rfl
  have all : ∀ c : Byte, (digitValue c).isSome → c ≠ plusSign ∧ c ≠ minusSign ∧ isCSpace c = false := by
    decide
  exact all c digit

/-- The parts of a hexadecimal prefix. -/
lemma hasHexPrefix_elim (h : hasHexPrefix t = true) :
    ∃ x c s, t = zeroDigit :: x :: c :: s ∧ (x = 120 ∨ x = 88) ∧ (digitOf 16 c).isSome := by
  unfold hasHexPrefix at h
  rw [Bool.and_eq_true, Bool.and_eq_true, Bool.or_eq_true, decide_eq_true_eq, decide_eq_true_eq,
    decide_eq_true_eq] at h
  obtain ⟨⟨zero, x⟩, digit⟩ := h
  cases t with
  | nil => cases zero
  | cons z t =>
    cases zero
    cases t with
    | nil => exact x.elim (fun e => nomatch e) fun e => nomatch e
    | cons y t =>
      cases t with
      | nil => cases digit
      | cons c s => exact ⟨y, c, s, rfl, x.imp Option.some.inj Option.some.inj, digit⟩

namespace Numeral

/-- What follows the sign starts with a digit. -/
lemma Form.head (h : n.Form base) : ∃ c s, n.lead ++ n.digits = c :: s ∧ (digitOf 36 c).isSome := by
  rcases h.lead with ⟨lead, _⟩ | ⟨lead | lead, _⟩
  · obtain ⟨c, s, e⟩ := List.exists_cons_of_ne_nil h.digits
    refine ⟨c, s, by rw [lead, e]; rfl, ?_⟩
    have digit := h.values c (by rw [e]; exact List.mem_cons_self)
    obtain ⟨d, is⟩ := Option.isSome_iff_exists.mp digit
    have all : ∀ c : Byte, (digitValue c).isSome → (digitOf 36 c).isSome := by decide
    exact all c (by rw [(digitOf_eq_some.mp is).1]; rfl)
  · exact ⟨zeroDigit, _, by rw [lead]; rfl, by decide⟩
  · exact ⟨zeroDigit, _, by rw [lead]; rfl, by decide⟩

/-- The sign of a text of the expected form is the one that is read. -/
lemma Form.sign_eq (h : n.Form base) (starts : n.text <+: t) :
    n.sign = t.take (readSign t).2 ∧ ((readSign t).1 = true ↔ n.sign = [minusSign]) ∧
      n.lead ++ n.digits <+: t.drop (readSign t).2 := by
  obtain ⟨rest, rfl⟩ := starts
  unfold text
  rcases h.sign with sign | sign | sign
  · obtain ⟨c, s, e, digit⟩ := h.head
    obtain ⟨noPlus, noMinus, _⟩ := digit_ne digit
    have none : readSign (c :: (s ++ rest)) = (false, 0) := by
      unfold readSign
      rw [List.head?_cons]
      dsimp only
      rw [if_neg noMinus, if_neg noPlus]
    rw [sign, e, List.nil_append, List.cons_append, none]
    exact ⟨rfl, by decide, rest, rfl⟩
  · have plus : readSign ([plusSign] ++ (n.lead ++ n.digits) ++ rest) = (false, 1) := rfl
    rw [sign, plus]
    exact ⟨rfl, by decide, List.prefix_append _ _⟩
  · have minus : readSign ([minusSign] ++ (n.lead ++ n.digits) ++ rest) = (true, 1) := rfl
    rw [sign, minus]
    exact ⟨rfl, by decide, List.prefix_append _ _⟩

/-- What a text of the expected form says of what is read after the sign: its digits are a part of the
run that is read, or it is the zero in front of the `x`. -/
lemma Form.digits_prefix (h : n.Form base) (starts : n.lead ++ n.digits <+: u) :
    (n.radix = selectBase base u ∧ n.lead = u.take (prefixLength base u) ∧
      n.digits <+: (u.drop (prefixLength base u)).takeWhile
        fun c => (digitOf (selectBase base u) c).isSome) ∨
    n.lead = [] ∧ n.digits = [zeroDigit] ∧ selectBase base u = 16 ∧ hasHexPrefix u = true := by
  obtain ⟨rest, rfl⟩ := starts
  obtain ⟨c, ds, e⟩ := List.exists_cons_of_ne_nil h.digits
  rcases h.lead with ⟨lead, radix⟩ | ⟨lead, found, radix⟩
  · rw [lead, List.nil_append]
    by_cases hex : selectBase base (n.digits ++ rest) = 16 ∧ hasHexPrefix (n.digits ++ rest) = true
    · obtain ⟨sixteen, hex⟩ := hex
      refine .inr ⟨rfl, ?_, sixteen, hex⟩
      obtain ⟨x, _, _, parts, isX, _⟩ := hasHexPrefix_elim hex
      rw [e, List.cons_append] at parts
      obtain ⟨rfl, after⟩ := List.cons.inj parts
      cases ds with
      | nil => exact e
      | cons d ds =>
        -- The `x` would be a digit of base 8 or 16.
        obtain ⟨rfl, _⟩ := List.cons.inj after
        have small : n.radix ≤ 16 := by
          rw [radix]
          split_ifs with zero octal
          · decide
          · exact absurd (congrArg List.head? e) octal
          · unfold selectBase at sixteen
            rw [if_neg zero] at sixteen
            exact sixteen.le
        obtain ⟨v, digit⟩ := Option.isSome_iff_exists.mp (h.values d (by
          rw [e]
          exact List.mem_cons_of_mem _ List.mem_cons_self))
        obtain ⟨is, lt⟩ := digitOf_eq_some.mp digit
        have value : ∀ x : Byte, x = 120 ∨ x = 88 → digitValue x = some 33 := by decide
        rw [value d isX] at is
        cases is
        omega
    · have none : prefixLength base (n.digits ++ rest) = 0 := if_neg hex
      have same : n.radix = selectBase base (n.digits ++ rest) := by
        rw [radix]
        unfold selectBase at hex ⊢
        split
        next zero =>
          rw [if_pos zero] at hex
          rw [if_neg fun yes => hex ⟨if_pos yes, yes⟩, e]
          rfl
        next => rfl
      rw [none, ← same]
      refine .inl ⟨rfl, rfl, ?_⟩
      rw [List.drop_zero, List.takeWhile_append_of_pos h.values]
      exact List.prefix_append _ _
  · have first := h.values c (by rw [e]; exact List.mem_cons_self)
    rw [radix] at first
    have hex : hasHexPrefix (n.lead ++ n.digits ++ rest) = true := by
      unfold hasHexPrefix
      rcases lead with lead | lead
      · rw [lead, e]
        exact first
      · rw [lead, e]
        exact first
    have sixteen : selectBase base (n.lead ++ n.digits ++ rest) = 16 := by
      unfold selectBase
      rw [if_pos hex]
      rcases found with rfl | rfl
      · rfl
      · rfl
    have two : prefixLength base (n.lead ++ n.digits ++ rest) = 2 := if_pos ⟨sixteen, hex⟩
    have length : n.lead.length = 2 := by
      rcases lead with lead | lead
      · rw [lead]; rfl
      · rw [lead]; rfl
    rw [two, sixteen, List.append_assoc, ← length, List.take_left, List.drop_left]
    refine .inl ⟨radix, rfl, ?_⟩
    rw [← radix, List.takeWhile_append_of_pos h.values]
    exact List.prefix_append _ _

/-- Two numbers with the same text are the same. -/
lemma Form.eq_of_text (hn : n.Form base) (hm : m.Form base) (e : n.text = m.text) : n = m := by
  obtain ⟨signN, _, startN⟩ := hn.sign_eq (List.prefix_refl n.text)
  obtain ⟨signM, _, startM⟩ := hm.sign_eq (t := n.text) ⟨[], by rw [List.append_nil, e]⟩
  have sign : n.sign = m.sign := signN.trans signM.symm
  have rest : n.lead ++ n.digits = m.lead ++ m.digits := by
    unfold text at e
    rw [sign] at e
    exact List.append_cancel_left e
  have short {k : Numeral} {v : List Byte} (lead : k.lead = []) (digits : k.digits = [zeroDigit])
      (hex : hasHexPrefix v = true) (is : v = k.lead ++ k.digits) : False := by
    obtain ⟨x, c, s, parts, _⟩ := hasHexPrefix_elim hex
    rw [is, lead, digits] at parts
    cases parts
  rcases hn.digits_prefix (List.prefix_refl _) with ⟨radixN, leadN, _⟩ | ⟨lead, digits, _, hex⟩
  · rcases hm.digits_prefix (u := n.lead ++ n.digits) ⟨[], by rw [List.append_nil, rest]⟩ with
      ⟨radixM, leadM, _⟩ | ⟨lead, digits, _, hex⟩
    · have lead : n.lead = m.lead := leadN.trans leadM.symm
      have digits : n.digits = m.digits := by
        rw [lead] at rest
        exact List.append_cancel_left rest
      cases n
      cases m
      cases sign
      cases lead
      cases digits
      cases radixN.trans radixM.symm
      rfl
    · exact (short lead digits hex rest).elim
  · exact (short lead digits hex rfl).elim

/-- A text has one subject. -/
lemma Subject.unique (hn : n.Subject base t) (hm : m.Subject base t) : n = m := by
  have le := hn.longest m hm.form hm.starts
  have inside := List.prefix_of_prefix_length_le hm.starts hn.starts le
  have same := inside.eq_of_length (le.antisymm (hm.longest n hn.form hn.starts))
  exact hn.form.eq_of_text hm.form same.symm

end Numeral

/-! ## The parser -/

/-- The digits that `parse_c_integer` reads after the sign. -/
def digitsRead (base : Nat) (u : List Byte) : List Byte :=
  (u.drop (prefixLength base u)).takeWhile fun c => (digitOf (selectBase base u) c).isSome

/-- The number that `parse_c_integer` reads. -/
def numeralRead (base : Nat) (t : List Byte) : Numeral :=
  let u := t.drop (readSign t).2
  ⟨t.take (readSign t).2, u.take (prefixLength base u), digitsRead base u, selectBase base u⟩

/-- The sign read is one of the signs. -/
lemma readSign_spec (t : List Byte) : (t.take (readSign t).2 = [] ∨ t.take (readSign t).2 = [plusSign] ∨
    t.take (readSign t).2 = [minusSign]) ∧
      ((readSign t).1 = true ↔ t.take (readSign t).2 = [minusSign]) := by
  unfold readSign
  cases t with
  | nil => decide
  | cons c t =>
    rw [List.head?_cons]
    dsimp only
    split_ifs with minus plus
    · rw [minus]
      exact ⟨.inr (.inr rfl), iff_of_true rfl rfl⟩
    · rw [plus]
      have take : (plusSign :: t).take 1 = [plusSign] := rfl
      rw [take]
      exact ⟨.inr (.inl rfl), by decide⟩
    · rw [List.take_zero]
      exact ⟨.inl rfl, by decide⟩

lemma readSign_length (t : List Byte) : (t.take (readSign t).2).length = (readSign t).2 := by
  unfold readSign
  cases t with
  | nil => rfl
  | cons c t =>
    rw [List.head?_cons]
    dsimp only
    split_ifs
    · rfl
    · rfl
    · rfl

lemma prefixLength_length (base : Nat) (u : List Byte) :
    (u.take (prefixLength base u)).length = prefixLength base u := by
  unfold prefixLength
  split
  next hex =>
    obtain ⟨x, c, s, rfl, _⟩ := hasHexPrefix_elim hex.2
    rfl
  next => rfl

/-- A hexadecimal prefix has digits after it. -/
lemma digitsRead_ne_nil_of_hex (sixteen : selectBase base u = 16) (hex : hasHexPrefix u = true) :
    digitsRead base u ≠ [] := by
  have two : prefixLength base u = 2 := if_pos ⟨sixteen, hex⟩
  obtain ⟨x, c, s, rfl, _, digit⟩ := hasHexPrefix_elim hex
  unfold digitsRead
  rw [two, sixteen, List.drop_succ_cons, List.drop_succ_cons, List.drop_zero,
    List.takeWhile_cons_of_pos (p := fun c => (digitOf 16 c).isSome) digit]
  exact List.cons_ne_nil _ _

/-- Without a digit there is no number. -/
lemma no_form (none : digitsRead base (t.drop (readSign t).2) = []) (h : n.Form base) :
    ¬ n.text <+: t := by
  intro starts
  obtain ⟨_, _, rest⟩ := h.sign_eq starts
  rcases h.digits_prefix rest with ⟨_, _, digits⟩ | ⟨_, _, sixteen, hex⟩
  · exact h.digits (List.prefix_nil.mp (none ▸ digits))
  · exact digitsRead_ne_nil_of_hex sixteen hex none

/-- What the parser reads has the expected form. -/
lemma numeralRead_form (some : digitsRead base (t.drop (readSign t).2) ≠ []) :
    (numeralRead base t).Form base := by
  refine ⟨(readSign_spec t).1, ?_, some, fun c mem => ?_⟩
  case refine_2 => exact List.mem_takeWhile_imp (p := fun c => (digitOf _ c).isSome) mem
  revert some
  unfold numeralRead
  dsimp only
  generalize t.drop (readSign t).2 = u
  intro some
  by_cases hex : selectBase base u = 16 ∧ hasHexPrefix u = true
  · have two : prefixLength base u = 2 := if_pos hex
    obtain ⟨sixteen, hex⟩ := hex
    refine .inr ⟨?_, ?_, sixteen⟩
    · obtain ⟨x, c, s, rfl, isX, _⟩ := hasHexPrefix_elim hex
      rw [two]
      rcases isX with rfl | rfl
      · exact .inl rfl
      · exact .inr rfl
    · unfold selectBase at sixteen
      by_contra other
      rw [if_neg fun zero => other (.inl zero)] at sixteen
      exact other (.inr sixteen)
  · have none : prefixLength base u = 0 := if_neg hex
    refine .inl ⟨by rw [none, List.take_zero], ?_⟩
    have head : (digitsRead base u).head? = u.head? := by
      unfold digitsRead at some ⊢
      rw [none, List.drop_zero] at some ⊢
      cases u with
      | nil => rfl
      | cons c u =>
        rw [List.takeWhile_cons] at some ⊢
        split at some
        next digit => rw [if_pos digit]; rfl
        next => exact absurd rfl some
    rw [head]
    unfold selectBase at hex ⊢
    split
    next zero =>
      rw [if_pos zero] at hex
      rw [if_neg fun yes => hex ⟨if_pos yes, yes⟩]
    next => rfl

/-- What the parser reads is the subject. -/
lemma numeralRead_subject (some : digitsRead base (t.drop (readSign t).2) ≠ []) :
    (numeralRead base t).Subject base t := by
  refine ⟨numeralRead_form some, ?_, fun m form starts => ?_⟩
  · refine ⟨?_, ?_⟩
    · exact ((t.drop (readSign t).2).drop (prefixLength base (t.drop (readSign t).2))).dropWhile
        fun c => (digitOf (selectBase base (t.drop (readSign t).2)) c).isSome
    · unfold numeralRead Numeral.text digitsRead
      dsimp only
      rw [List.append_assoc, List.append_assoc, List.takeWhile_append_dropWhile,
        List.take_append_drop, List.take_append_drop]
  · obtain ⟨sign, _, rest⟩ := form.sign_eq starts
    unfold Numeral.text
    rw [sign, List.length_append, List.length_append, List.length_append, List.length_append]
    refine Nat.add_le_add_left ?_ _
    rcases form.digits_prefix rest with ⟨_, lead, digits⟩ | ⟨lead, digits, _⟩
    · rw [lead]
      exact Nat.add_le_add_left digits.length_le _
    · rw [lead, digits]
      exact (List.length_pos_iff.mpr some).trans_le (Nat.le_add_left _ _)

/-- `parse_c_integer` reads the subject after the white space, and nothing if there is none. -/
lemma parseCInteger_spec (base : Nat) (s : List Byte) :
    (∃ n : Numeral, n.Subject base (s.dropWhile isCSpace) ∧
      ((parseCInteger s base).negative = true ↔ n.sign = [minusSign]) ∧
      ((parseCInteger s base).overflow = true ↔ 2 ^ 64 ≤ n.magnitude) ∧
      ((parseCInteger s base).overflow = false → (parseCInteger s base).value = n.magnitude) ∧
      (parseCInteger s base).used = (s.takeWhile isCSpace).length + n.text.length) ∨
    (∀ n : Numeral, n.Form base → ¬ n.text <+: s.dropWhile isCSpace) ∧
      (parseCInteger s base).value = 0 ∧ (parseCInteger s base).overflow = false ∧
      (parseCInteger s base).used = 0 := by
  obtain ⟨white, t, rfl, spaces, after⟩ : ∃ white t, s = white ++ t ∧
      white = s.takeWhile isCSpace ∧ t = s.dropWhile isCSpace :=
    ⟨_, _, List.takeWhile_append_dropWhile.symm, rfl, rfl⟩
  rw [← spaces, ← after]
  have drop (k : Nat) : (white ++ t).drop (white.length + k) = t.drop k :=
    List.drop_length_add_append ..
  have start : (white ++ t).drop white.length = t := List.drop_left
  have pos : 0 < selectBase base (t.drop (readSign t).2) := by
    unfold selectBase
    split_ifs with zero
    · decide
    · decide
    · decide
    · exact Nat.pos_of_ne_zero zero
  have start' : DigitRun.Holds ⟨0, false, 0⟩ 0 := ⟨by decide, fun _ => rfl⟩
  obtain ⟨count, overflow, exact⟩ := readDigits_spec start' pos
    ((t.drop (readSign t).2).drop (prefixLength base (t.drop (readSign t).2)))
  rw [foldl_eq_ofDigits] at overflow exact
  rw [Nat.zero_add] at count
  unfold parseCInteger
  dsimp only
  rw [← spaces, start, drop, Nat.add_assoc, drop, ← List.drop_drop]
  by_cases run : digitsRead base (t.drop (readSign t).2) = []
  · refine .inr ⟨fun n form => no_form run form, ?_⟩
    have none : (readDigits (selectBase base (t.drop (readSign t).2)) ⟨0, false, 0⟩
        ((t.drop (readSign t).2).drop (prefixLength base (t.drop (readSign t).2)))).digits = 0 := by
      rw [count]
      exact congrArg List.length run
    have nothing : ((t.drop (readSign t).2).drop (prefixLength base (t.drop (readSign t).2))).takeWhile
        (fun c => (digitOf (selectBase base (t.drop (readSign t).2)) c).isSome) = [] := run
    rw [nothing, List.map_nil, List.reverse_nil, Nat.ofDigits_nil] at overflow exact
    have fits := Bool.eq_false_iff.mpr fun yes => absurd (overflow.mp yes) (by decide)
    exact ⟨exact fits, fits, if_pos none⟩
  · refine .inl ⟨numeralRead base t, numeralRead_subject run, (readSign_spec t).2, overflow, exact, ?_⟩
    have length : (numeralRead base t).text.length = (readSign t).2
        + (prefixLength base (t.drop (readSign t).2)
          + (digitsRead base (t.drop (readSign t).2)).length) := by
      unfold numeralRead Numeral.text
      rw [List.length_append, List.length_append, readSign_length, prefixLength_length]
    unfold digitsRead at run length
    rw [if_neg, length, count]
    · omega
    · rw [count]
      exact fun none => run (List.length_eq_zero_iff.mp none)

/-- `strtol` and `strtoul` return what C says. -/
lemma strtol_spec (base : Nat) (s : List Byte) :
    (∃ n : Numeral, n.Subject base (s.dropWhile isCSpace) ∧
      strtol s base = (n.clamped, (s.takeWhile isCSpace).length + n.text.length) ∧
      strtoul s base = (n.unsigned, (s.takeWhile isCSpace).length + n.text.length)) ∨
    (∀ n : Numeral, n.Form base → ¬ n.text <+: s.dropWhile isCSpace) ∧
      strtol s base = (0, 0) ∧ strtoul s base = (0, 0) := by
  have parsed := parseCInteger_spec base s
  unfold strtol strtoul
  revert parsed
  generalize parseCInteger s base = r
  obtain ⟨negative, value, overflow, used⟩ := r
  dsimp only
  rintro (⟨n, subject, minus, large, exact, rfl⟩ | ⟨none, rfl, rfl, rfl⟩)
  · refine .inl ⟨n, subject, ?_, ?_⟩
    · congr 1
      unfold Numeral.clamped Numeral.value clampI64 i64Max i64Min
      cases overflow with
      | true =>
        have big := large.mp rfl
        cases negative with
        | true => rw [if_pos (minus.mp rfl)]; dsimp only; omega
        | false =>
          rw [if_neg fun yes => Bool.noConfusion (minus.mpr yes)]
          dsimp only
          omega
      | false =>
        cases exact rfl
        cases negative with
        | true => rw [if_pos (minus.mp rfl)]; dsimp only; split <;> omega
        | false =>
          rw [if_neg fun yes => Bool.noConfusion (minus.mpr yes)]
          dsimp only
          split <;> omega
    · congr 1
      unfold Numeral.unsigned Numeral.value
      cases overflow with
      | true => rw [if_pos rfl, if_pos (large.mp rfl)]
      | false =>
        have small : ¬ 2 ^ 64 ≤ n.magnitude := fun le => Bool.noConfusion (large.mpr le)
        cases exact rfl
        rw [if_neg Bool.false_ne_true, if_neg small]
        cases negative with
        | true => rw [if_pos rfl, if_pos (minus.mp rfl)]; omega
        | false =>
          rw [if_neg Bool.false_ne_true, if_neg fun yes => Bool.noConfusion (minus.mpr yes)]
          omega
  · refine .inr ⟨none, ?_, ?_⟩
    · cases negative with
      | false => rfl
      | true => rfl
    · cases negative with
      | false => rfl
      | true => rfl

/-! ## Printing and reading -/

/-- A text of the expected form is read whole. -/
lemma strtol_text (form : n.Form base) :
    (strtol n.text base).1 = n.clamped ∧ (strtoul n.text base).1 = n.unsigned := by
  obtain ⟨c, s, e, other⟩ : ∃ c s, n.text = c :: s ∧ isCSpace c = false := by
    obtain ⟨c, s, e, digit⟩ := form.head
    unfold Numeral.text
    rcases form.sign with sign | sign | sign
    · exact ⟨c, s, by rw [sign, e]; rfl, (digit_ne digit).2.2⟩
    · exact ⟨plusSign, _, by rw [sign]; rfl, by decide⟩
    · exact ⟨minusSign, _, by rw [sign]; rfl, by decide⟩
  have start : n.text.dropWhile isCSpace = n.text := by
    rw [e, List.dropWhile_cons_of_neg (by rw [other]; decide)]
  have subject : n.Subject base n.text :=
    ⟨form, List.prefix_refl _, fun m _ starts => starts.length_le⟩
  have spec := strtol_spec base n.text
  rw [start] at spec
  rcases spec with ⟨m, found, signed, unsigned⟩ | ⟨none, _⟩
  · cases found.unique subject
    rw [signed, unsigned]
    exact ⟨rfl, rfl⟩
  · exact absurd (List.prefix_refl _) (none n form)

lemma digitOf_digitByte {d : Nat} (lt : d < radix) (le : radix ≤ 36) :
    digitOf radix (digitByte d) = some d := by
  have all : ∀ d : Fin 36, digitValue (digitByte d) = some d.val := by decide
  exact digitOf_eq_some.mpr ⟨all ⟨d, lt.trans_le le⟩, lt⟩

/-- The digits of a number stand for it. -/
lemma ofDigits_numberText (low : 1 < radix) (high : radix ≤ 36) (k : Nat) :
    Nat.ofDigits radix ((numberText radix k).map fun c => (digitOf radix c).getD 0).reverse = k := by
  unfold numberText
  split
  next zero =>
    have digit : digitOf radix zeroDigit = some 0 := digitOf_digitByte (d := 0) (by omega) high
    rw [List.map_singleton, digit, zero]
    rfl
  next =>
    have same : (Nat.digits radix k).reverse.map ((fun c => (digitOf radix c).getD 0) ∘ digitByte)
        = (Nat.digits radix k).reverse.map id := by
      refine List.map_congr_left fun d mem => ?_
      have lt := Nat.digits_lt_base low (List.mem_reverse.mp mem)
      show (digitOf radix (digitByte d)).getD 0 = d
      rw [digitOf_digitByte lt high]
      rfl
    rw [List.map_map, same, List.map_id, List.reverse_reverse, Nat.ofDigits_digits]

lemma numberText_digits (low : 1 < radix) (high : radix ≤ 36) (k : Nat) :
    ∀ c ∈ numberText radix k, (digitOf radix c).isSome := by
  unfold numberText
  intro c mem
  split at mem
  next =>
    rw [List.mem_singleton.mp mem]
    have digit : digitOf radix zeroDigit = some 0 := digitOf_digitByte (d := 0) (by omega) high
    rw [digit]
    rfl
  next =>
    obtain ⟨d, digit, rfl⟩ := List.mem_map.mp mem
    rw [digitOf_digitByte (Nat.digits_lt_base low (List.mem_reverse.mp digit)) high]
    rfl

/-- Only the number zero starts with a zero. -/
lemma numberText_head (low : 1 < radix) (high : radix ≤ 36) (k : Nat) :
    ∃ c s, numberText radix k = c :: s ∧ (c = zeroDigit ↔ k = 0) := by
  unfold numberText
  split
  next zero => exact ⟨zeroDigit, [], rfl, iff_of_true rfl zero⟩
  next pos =>
    have full : Nat.digits radix k ≠ [] := Nat.digits_ne_nil_iff_ne_zero.mpr pos
    obtain ⟨rest, d, e⟩ : ∃ rest d, Nat.digits radix k = rest ++ [d] :=
      ⟨_, _, (List.dropLast_append_getLast full).symm⟩
    have last : d ≠ 0 := by
      have last := Nat.getLast_digit_ne_zero radix pos
      simp only [e, List.getLast_append_singleton] at last
      exact last
    have lt : d < radix := Nat.digits_lt_base low (m := k) (by rw [e]; exact List.mem_concat_self)
    refine ⟨digitByte d, rest.reverse.map digitByte, ?_, iff_of_false (fun same => last ?_) pos⟩
    · rw [e, List.reverse_append, List.reverse_singleton, List.map_append, List.map_singleton]
      rfl
    · have zero : digitOf radix zeroDigit = some 0 := digitOf_digitByte (d := 0) (by omega) high
      rw [← same, digitOf_digitByte lt high] at zero
      exact Option.some.inj zero

/-- A decimal number has the form of base 0, and stands for what was printed. -/
lemma decimal_form {sign : List Byte} (k : Nat) (plain : sign = [] ∨ sign = [minusSign]) :
    ∃ n : Numeral, n.Form 0 ∧ n.text = sign ++ numberText 10 k ∧ n.sign = sign ∧ n.magnitude = k := by
  obtain ⟨c, s, e, zero⟩ := numberText_head (by decide : 1 < 10) (by decide) k
  refine ⟨⟨sign, [], numberText 10 k, if k = 0 then 8 else 10⟩, ⟨?_, ?_, ?_, ?_⟩, rfl, rfl, ?_⟩
  · exact plain.imp_right .inr
  · refine .inl ⟨rfl, ?_⟩
    rw [if_pos rfl, e, List.head?_cons]
    exact if_congr (zero.symm.trans (Option.some_inj.symm)) rfl rfl
  · rw [e]
    exact List.cons_ne_nil _ _
  · dsimp only
    split
    next none => subst none; decide
    next => exact numberText_digits (by decide) (by decide) k
  · unfold Numeral.magnitude
    dsimp only
    split
    next none => subst none; decide
    next => exact ofDigits_numberText (by decide) (by decide) k

/-- `stoi` reads what `itos` prints. -/
lemma stoi_itos (v : Word) : stoi (itos v) = v := by
  have low : -2 ^ 31 ≤ v.toInt := BitVec.le_toInt v
  have high : v.toInt < 2 ^ 31 := BitVec.toInt_lt
  obtain ⟨n, form, text, value⟩ : ∃ n : Numeral, n.Form 0 ∧ n.text = itos v ∧ n.value = v.toInt := by
    unfold itos
    split
    next negative =>
      obtain ⟨n, form, text, sign, magnitude⟩ := decimal_form v.toInt.natAbs (.inr rfl)
      refine ⟨n, form, text, ?_⟩
      unfold Numeral.value
      rw [if_pos sign, magnitude]
      omega
    next =>
      obtain ⟨n, form, text, sign, magnitude⟩ := decimal_form v.toInt.natAbs (.inl rfl)
      refine ⟨n, form, text, ?_⟩
      unfold Numeral.value
      rw [if_neg (by rw [sign]; decide), magnitude]
      omega
  have clamped : n.clamped = v.toInt := by
    unfold Numeral.clamped clampI64 i64Max i64Min
    omega
  unfold stoi
  rw [← text, (strtol_text form).1, clamped, BitVec.ofInt_toInt]

/-- `stoh` reads what `htos` prints. -/
lemma stoh_htos (v : Word) : stoh (htos v) = v := by
  have low : 1 < 16 := by decide
  have high : 16 ≤ 36 := by decide
  have zero : digitOf 16 zeroDigit = some 0 := by decide
  have form : Numeral.Form 16 ⟨[], [], htos v, 16⟩ := by
    refine ⟨.inl rfl, .inl ⟨rfl, rfl⟩, ?_, fun c mem => ?_⟩
    · obtain ⟨c, s, e, _⟩ := numberText_head low high v.toNat
      unfold htos
      rw [e]
      exact List.append_ne_nil_of_right_ne_nil _ (List.cons_ne_nil _ _)
    · rcases List.mem_append.mp mem with pad | digit
      · rw [List.eq_of_mem_replicate pad, zero]
        rfl
      · exact numberText_digits low high _ c digit
  have magnitude : Numeral.magnitude ⟨[], [], htos v, 16⟩ = v.toNat := by
    unfold Numeral.magnitude htos
    dsimp only
    rw [List.map_append, List.reverse_append, List.map_replicate, zero, List.reverse_replicate]
    exact (Nat.ofDigits_append_replicate_zero _).trans (ofDigits_numberText low high _)
  have small : v.toNat < 2 ^ 32 := v.isLt
  have unsigned : Numeral.unsigned ⟨[], [], htos v, 16⟩ = v.toNat := by
    unfold Numeral.unsigned Numeral.value
    dsimp only
    rw [magnitude, if_neg (by omega), if_neg (by decide)]
    omega
  unfold stoh
  have whole : strtoul (htos v) 16 = strtoul (Numeral.text ⟨[], [], htos v, 16⟩) 16 := rfl
  rw [whole, (strtol_text form).2, unsigned, BitVec.ofNat_toNat, BitVec.setWidth_eq]

/-- The integer parsers have C's meaning, and so the builtins that read integers read what those that
print them print. -/
theorem integers_as_in_c :
    (∀ (s : List Byte) (base : Nat),
      (∃ n : Numeral, n.Subject base (s.dropWhile isCSpace) ∧ n.text ≠ [] ∧
        strtol s base = (n.clamped, (s.takeWhile isCSpace).length + n.text.length) ∧
        strtoul s base = (n.unsigned, (s.takeWhile isCSpace).length + n.text.length)) ∨
      (∀ n : Numeral, n.Form base → ¬ n.text <+: s.dropWhile isCSpace) ∧
        strtol s base = (0, 0) ∧ strtoul s base = (0, 0)) ∧
    (∀ v : Word, stoi (itos v) = v) ∧ ∀ v : Word, stoh (htos v) = v := by
  refine ⟨fun s base => ?_, stoi_itos, stoh_htos⟩
  rcases strtol_spec base s with ⟨n, subject, read⟩ | none
  · obtain ⟨c, t, e, _⟩ := subject.form.head
    refine .inl ⟨n, subject, ?_, read⟩
    unfold Numeral.text
    rw [e]
    exact List.append_ne_nil_of_right_ne_nil _ (List.cons_ne_nil _ _)
  · exact .inr none

end Qcvm.Stdlib

import Qcvm.Stdlib.Format

/-!
# Printed integers read back

What the integer conversions of `printf` print, `strtol` and `strtoul` read back: the flags, the width
and the precision put spaces around the number and zeros in front of its digits, and neither changes
what is read. In the alternate form the base is read too.
-/

namespace Qcvm.Stdlib

variable {base : Nat} {s t u : List Byte} {n m : Numeral}

/-- Nothing in a number is white space. -/
lemma Numeral.Form.no_space (form : n.Form base) : ∀ c ∈ n.text, isCSpace c = false := by
  intro c mem
  unfold Numeral.text at mem
  rcases List.mem_append.mp mem with sign | mem
  · rcases form.sign with e | e | e
    · rw [e] at sign
      cases sign
    · rw [e, List.mem_singleton] at sign
      rw [sign]
      rfl
    · rw [e, List.mem_singleton] at sign
      rw [sign]
      rfl
  · rcases List.mem_append.mp mem with lead | digit
    · rcases form.lead with ⟨e, -⟩ | ⟨e | e, -⟩
      · rw [e] at lead
        cases lead
      · rw [e] at lead
        have all : ∀ c ∈ [zeroDigit, (120 : Byte)], isCSpace c = false := by decide
        exact all c lead
      · rw [e] at lead
        have all : ∀ c ∈ [zeroDigit, (88 : Byte)], isCSpace c = false := by decide
        exact all c lead
    · exact (digit_ne (form.values c digit)).2.2

/-- A number is read between spaces. -/
lemma strtol_between (form : n.Form base) (before : ∀ c ∈ s, isCSpace c = true)
    (behind : ∀ c ∈ u, isCSpace c = true) :
    (strtol (s ++ (n.text ++ u)) base).1 = n.clamped ∧
      (strtoul (s ++ (n.text ++ u)) base).1 = n.unsigned := by
  have subject : n.Subject base ((s ++ (n.text ++ u)).dropWhile isCSpace) := by
    have start : (s ++ (n.text ++ u)).dropWhile isCSpace = n.text ++ u := by
      obtain ⟨c, t, e, -⟩ := form.head
      have some : n.text ≠ [] := by
        unfold Numeral.text
        rw [e]
        exact List.append_ne_nil_of_right_ne_nil _ (List.cons_ne_nil _ _)
      obtain ⟨c, t, e⟩ := List.exists_cons_of_ne_nil some
      have head := form.no_space c (by rw [e]; exact List.mem_cons_self)
      rw [List.dropWhile_append_of_pos before, e, List.cons_append, List.dropWhile_cons_of_neg]
      rw [head]
      exact Bool.false_ne_true
    rw [start]
    refine ⟨form, List.prefix_append _ _, fun m other starts => ?_⟩
    by_contra longer
    -- The first byte behind the number would be one of the longer number.
    obtain ⟨rest, whole⟩ : n.text <+: m.text :=
      List.prefix_of_prefix_length_le (List.prefix_append _ _) starts (by omega)
    cases rest with
    | nil =>
      rw [List.append_nil] at whole
      rw [whole] at longer
      exact longer (Nat.le_refl _)
    | cons c rest =>
      have inside : c ∈ m.text := by
        rw [← whole]
        exact List.mem_append_right _ List.mem_cons_self
      obtain ⟨more, e⟩ := starts
      rw [← whole, List.append_assoc, List.append_cancel_left_eq] at e
      have space := behind c (by rw [← e]; exact List.mem_cons_self)
      rw [other.no_space c inside] at space
      exact Bool.false_ne_true space
  rcases strtol_spec base (s ++ (n.text ++ u)) with ⟨m, found, signed, unsigned⟩ | ⟨none, -⟩
  · cases found.unique subject
    rw [signed, unsigned]
    exact ⟨rfl, rfl⟩
  · exact absurd subject.starts (none n form)

/-- Without a digit between the spaces nothing is read. -/
lemma strtol_blank (sign : s = [] ∨ s = [plusSign] ∨ s = [minusSign])
    (before : ∀ c ∈ t, isCSpace c = true) (behind : ∀ c ∈ u, isCSpace c = true) (base : Nat) :
    (strtol (t ++ (s ++ u)) base).1 = 0 ∧ (strtoul (t ++ (s ++ u)) base).1 = 0 := by
  have none : ∀ n : Numeral, n.Form base → ¬n.text <+: (t ++ (s ++ u)).dropWhile isCSpace := by
    intro n form starts
    obtain ⟨c, rest, e⟩ := List.exists_cons_of_ne_nil form.digits
    have digit := form.values c (by rw [e]; exact List.mem_cons_self)
    have inside : c ∈ n.text := by
      unfold Numeral.text
      rw [e]
      exact List.mem_append_right _ (List.mem_append_right _ List.mem_cons_self)
    obtain ⟨noPlus, noMinus, noSpace⟩ := digit_ne digit
    have mem : c ∈ t ++ (s ++ u) := (List.dropWhile_suffix _).subset (starts.subset inside)
    rcases List.mem_append.mp mem with mem | mem
    · rw [before c mem] at noSpace
      cases noSpace
    · rcases List.mem_append.mp mem with mem | mem
      · rcases sign with rfl | rfl | rfl
        · cases mem
        · exact noPlus (List.mem_singleton.mp mem)
        · exact noMinus (List.mem_singleton.mp mem)
      · rw [behind c mem] at noSpace
        cases noSpace
  rcases strtol_spec base (t ++ (s ++ u)) with ⟨m, found, -, -⟩ | ⟨-, signed, unsigned⟩
  · exact absurd found.starts (none m found.form)
  · rw [signed, unsigned]
    exact ⟨rfl, rfl⟩

/-! ## What is printed -/

/-- The digits of the conversions `d`, `u`, `o` and `x`. -/
def IntRadix (radix : Nat) : Prop := radix = 8 ∨ radix = 10 ∨ radix = 16

/-- Whether `fmt_int` pads with zeros. -/
def padsZeros (spec : Spec) : Bool := spec.zero && !spec.left && spec.prec.isNone

/-- The number in what `fmt_int` prints: its sign, its prefix and its digits with the zeros in front of
them. -/
def printedNumeral (negative : Bool) (magnitude radix : Nat) (upper signed : Bool) (spec : Spec) :
    Numeral :=
  let p := intPieces negative magnitude radix upper signed spec
  ⟨p.sign.toList.filter (· != spaceByte), p.lede,
    List.replicate (if padsZeros spec then spec.width - p.len else 0) zeroDigit ++
      (List.replicate p.lead zeroDigit ++ p.body), radix⟩

section Printed

variable {negative upper signed : Bool} {magnitude radix : Nat} {spec : Spec}

lemma intDigits_values (known : IntRadix radix) (magnitude : Nat) (upper : Bool) :
    (∀ c ∈ intDigits magnitude radix upper, (digitOf radix c).isSome) ∧
      Nat.ofDigits radix ((intDigits magnitude radix upper).map
        fun c => (digitOf radix c).getD 0).reverse = magnitude := by
  have plain (low : 1 < radix) (high : radix ≤ 36) :
      (∀ c ∈ numberText radix magnitude, (digitOf radix c).isSome) ∧
        Nat.ofDigits radix ((numberText radix magnitude).map
          fun c => (digitOf radix c).getD 0).reverse = magnitude :=
    ⟨numberText_digits low high magnitude, ofDigits_numberText low high magnitude⟩
  rcases known with rfl | rfl | rfl
  · exact plain (by decide) (by decide)
  · exact plain (by decide) (by decide)
  · obtain ⟨values, value⟩ := plain (by decide) (by decide)
    cases upper with
    | false => exact ⟨values, value⟩
    | true =>
      have same : ∀ c : Byte, digitOf 16 (asciiUpper c) = digitOf 16 c := by decide
      have digits : intDigits magnitude 16 true = (numberText 16 magnitude).map asciiUpper := rfl
      rw [digits]
      constructor
      · intro c mem
        obtain ⟨b, digit, rfl⟩ := List.mem_map.mp mem
        rw [same]
        exact values b digit
      · rw [List.map_map]
        have values : (fun c => (digitOf 16 c).getD 0) ∘ asciiUpper = fun c => (digitOf 16 c).getD 0 := by
          funext c
          exact congrArg (fun d => d.getD 0) (same c)
        rw [values]
        exact value

lemma zero_value (known : IntRadix radix) : digitOf radix zeroDigit = some 0 := by
  rcases known with rfl | rfl | rfl
  · rfl
  · rfl
  · rfl

/-- Zeros in front of digits do not change the number. -/
lemma zeros_values (known : IntRadix radix) {digits : List Byte} (k : Nat)
    (h : (∀ c ∈ digits, (digitOf radix c).isSome) ∧
      Nat.ofDigits radix (digits.map fun c => (digitOf radix c).getD 0).reverse = magnitude) :
    (∀ c ∈ List.replicate k zeroDigit ++ digits, (digitOf radix c).isSome) ∧
      Nat.ofDigits radix ((List.replicate k zeroDigit ++ digits).map
        fun c => (digitOf radix c).getD 0).reverse = magnitude := by
  obtain ⟨values, value⟩ := h
  have zero := zero_value known
  constructor
  · intro c mem
    rcases List.mem_append.mp mem with mem | mem
    · rw [List.eq_of_mem_replicate mem, zero]
      rfl
    · exact values c mem
  · rw [List.map_append, List.reverse_append, List.map_replicate, zero, List.reverse_replicate]
    exact (Nat.ofDigits_append_replicate_zero _).trans value

/-- The digits that are printed stand for the magnitude. -/
lemma printedNumeral_values (known : IntRadix radix) :
    let n := printedNumeral negative magnitude radix upper signed spec
    (∀ c ∈ n.digits, (digitOf radix c).isSome) ∧ n.magnitude = magnitude := by
  have body : (∀ c ∈ intBody magnitude radix upper spec, (digitOf radix c).isSome) ∧
      Nat.ofDigits radix ((intBody magnitude radix upper spec).map
        fun c => (digitOf radix c).getD 0).reverse = magnitude := by
    unfold intBody
    split
    next none =>
      rw [none.1]
      exact ⟨nofun, rfl⟩
    next => exact intDigits_values known magnitude upper
  have alternate : (∀ c ∈ (intPieces negative magnitude radix upper signed spec).body,
      (digitOf radix c).isSome) ∧ Nat.ofDigits radix
        ((intPieces negative magnitude radix upper signed spec).body.map
          fun c => (digitOf radix c).getD 0).reverse = magnitude := by
    unfold intPieces
    dsimp only
    split
    next => exact zeros_values known 1 body
    next => exact body
  exact zeros_values known _ (zeros_values known _ alternate)

/-- The number is printed between spaces. -/
lemma text_eq_printed : ∃ before behind : List Byte, (∀ c ∈ before, isCSpace c = true) ∧
    (∀ c ∈ behind, isCSpace c = true) ∧
      (intPieces negative magnitude radix upper signed spec).text spec (padsZeros spec) =
        before ++ ((printedNumeral negative magnitude radix upper signed spec).text ++ behind) := by
  have spaces (k : Nat) : ∀ c ∈ List.replicate k spaceByte, isCSpace c = true := by
    intro c mem
    rw [List.eq_of_mem_replicate mem]
    rfl
  have sign : ∃ k, (intPieces negative magnitude radix upper signed spec).sign.toList =
      List.replicate k spaceByte ++ (intPieces negative magnitude radix upper signed spec).sign.toList.filter
        (· != spaceByte) := by
    unfold intPieces intSign
    dsimp only
    split
    next => exact ⟨0, rfl⟩
    next =>
      split
      next => exact ⟨0, rfl⟩
      next =>
        split
        next => exact ⟨1, rfl⟩
        next => exact ⟨0, rfl⟩
  obtain ⟨k, sign⟩ := sign
  have left : padsZeros spec = true → spec.left = false := by
    unfold padsZeros
    intro pads
    simp only [Bool.and_eq_true, Bool.not_eq_true'] at pads
    exact pads.1.2
  unfold Pieces.text printedNumeral Numeral.text
  dsimp only
  generalize pieces : intPieces negative magnitude radix upper signed spec = p at sign ⊢
  have trail : p.trail = 0 := by rw [← pieces]; rfl
  have suffix : p.suffix = [] := by rw [← pieces]; rfl
  rw [sign, trail, suffix]
  have filtered : List.filter (· != spaceByte) (List.replicate k spaceByte ++
      p.sign.toList.filter (· != spaceByte)) = p.sign.toList.filter (· != spaceByte) := by
    rw [← sign]
  rw [filtered]
  refine ⟨(if !spec.left && !padsZeros spec then List.replicate (spec.width - p.len) spaceByte else []) ++
    List.replicate k spaceByte,
    if spec.left then List.replicate (spec.width - p.len) spaceByte else [], ?_, ?_, ?_⟩
  · intro c mem
    rcases List.mem_append.mp mem with mem | mem
    · split at mem
      next => exact spaces _ c mem
      next => cases mem
    · exact spaces k c mem
  · intro c mem
    split at mem
    next => exact spaces _ c mem
    next => cases mem
  · have zeros : (if !spec.left && padsZeros spec then List.replicate (spec.width - p.len) zeroDigit
        else []) = List.replicate (if padsZeros spec then spec.width - p.len else 0) zeroDigit := by
      cases pads : padsZeros spec with
      | false => rw [Bool.and_false]; rfl
      | true => rw [left pads]; rfl
    rw [zeros]
    simp only [List.append_assoc, List.replicate_zero, List.nil_append]

/-- The sign and the prefix have the form of a number. -/
lemma printedNumeral_sign :
    let n := printedNumeral negative magnitude radix upper signed spec
    (n.sign = [] ∨ n.sign = [plusSign] ∨ n.sign = [minusSign]) ∧
      (n.sign = [minusSign] ↔ negative = true) := by
  unfold printedNumeral intPieces intSign
  dsimp only
  cases negative with
  | true => exact ⟨.inr (.inr rfl), iff_of_true rfl rfl⟩
  | false =>
    have plus : [plusSign] ≠ [minusSign] := by decide
    have none : ([] : List Byte) ≠ [minusSign] := by decide
    cases signed && spec.plus with
    | true => exact ⟨.inr (.inl rfl), iff_of_false plus Bool.false_ne_true⟩
    | false =>
      cases signed && spec.space with
      | true => exact ⟨.inl rfl, iff_of_false none Bool.false_ne_true⟩
      | false => exact ⟨.inl rfl, iff_of_false none Bool.false_ne_true⟩

/-- The digits of an octal number in the alternate form start with a zero. -/
lemma printed_octal (alt : spec.alt = true) :
    (printedNumeral negative magnitude 8 upper signed spec).digits.head? = some zeroDigit := by
  have zeros (k : Nat) {s : List Byte} (h : s.head? = some zeroDigit) :
      (List.replicate k zeroDigit ++ s).head? = some zeroDigit := by
    cases k with
    | zero => exact h
    | succ k => rfl
  unfold printedNumeral intPieces
  dsimp only
  refine zeros _ ?_
  cases lead : intLead (intBody magnitude 8 upper spec) spec with
  | succ k => rfl
  | zero =>
    refine zeros 0 ?_
    by_cases head : (intBody magnitude 8 upper spec).head? = some zeroDigit
    · rw [if_neg (by rw [head]; exact fun h => h.2.2.2 rfl)]
      exact head
    · rw [if_pos ⟨alt, rfl, rfl, head⟩]
      rfl

/-- A zero is printed with zeros only. -/
lemma printed_zero (known : IntRadix radix) :
    ∀ c ∈ (printedNumeral negative 0 radix upper signed spec).digits, c = zeroDigit := by
  have body : ∀ c ∈ intBody 0 radix upper spec, c = zeroDigit := by
    unfold intBody
    split
    next => simp
    next =>
      rcases known with rfl | rfl | rfl
      · decide +revert
      · decide +revert
      · decide +revert
  unfold printedNumeral intPieces
  dsimp only
  intro c mem
  rcases List.mem_append.mp mem with mem | mem
  · exact List.eq_of_mem_replicate mem
  · rcases List.mem_append.mp mem with mem | mem
    · exact List.eq_of_mem_replicate mem
    · split at mem
      next =>
        rcases List.mem_cons.mp mem with rfl | mem
        · rfl
        · exact body c mem
      next => exact body c mem

/-- The prefix is that of a hexadecimal number in the alternate form. -/
lemma printed_lead :
    (printedNumeral negative magnitude radix upper signed spec).lead =
      if spec.alt ∧ radix = 16 ∧ magnitude ≠ 0 then
        if upper then [zeroDigit, 88] else [zeroDigit, 120]
      else [] := rfl

/-- The bases that read a printed integer: the one that it was printed in, and base 0 if that is
found from the text, by the prefix of the alternate form or because nothing is in front of decimal
digits. -/
def ReadBase (spec : Spec) (radix base : Nat) : Prop :=
  base = radix ∨ base = 0 ∧
    if radix = 10 then padsZeros spec = false ∧ spec.prec = none else spec.alt = true

/-- A printed number has the form of the bases that read it. -/
lemma printed_form (known : IntRadix radix) (reads : ReadBase spec radix base)
    (some : (printedNumeral negative magnitude radix upper signed spec).digits ≠ []) :
    ∃ n : Numeral, n.Form base ∧
      n.text = (printedNumeral negative magnitude radix upper signed spec).text ∧
      n.sign = (printedNumeral negative magnitude radix upper signed spec).sign ∧
      n.magnitude = magnitude := by
  have sign := (@printedNumeral_sign negative upper signed magnitude radix spec).1
  have same := @printedNumeral_values negative upper signed magnitude radix spec known
  have lead := @printed_lead negative upper signed magnitude radix spec
  by_cases zero : magnitude = 0
  -- The digits of zero are zeros alone, if there are any, and read in every base.
  · subst zero
    have zeros := @printed_zero negative upper signed radix spec known
    rw [if_neg (fun h => h.2.2 rfl)] at lead
    generalize printedNumeral negative 0 radix upper signed spec = p at *
    have digits : p.digits = List.replicate p.digits.length zeroDigit := List.eq_replicate_of_mem zeros
    have found : IntRadix (if base = 0 then 8 else base) := by
      rcases reads with rfl | ⟨rfl, -⟩
      · rcases known with rfl | rfl | rfl
        · exact .inl rfl
        · exact .inr (.inl rfl)
        · exact .inr (.inr rfl)
      · exact .inl rfl
    have read := @zeros_values 0 _ found [] p.digits.length ⟨by simp, rfl⟩
    rw [List.append_nil, ← digits] at read
    refine ⟨⟨p.sign, p.lead, p.digits, if base = 0 then 8 else base⟩, ⟨sign, .inl ⟨lead, ?_⟩, some,
      read.1⟩, rfl, rfl, read.2⟩
    obtain ⟨c, t, e⟩ := List.exists_cons_of_ne_nil some
    have head := zeros c (by rw [e]; exact List.mem_cons_self)
    dsimp only
    rw [e, head, List.head?_cons, if_pos (rfl : Option.some zeroDigit = _)]
  · refine ⟨printedNumeral negative magnitude radix upper signed spec, ⟨sign, ?_, some, same.1⟩, rfl, rfl,
      same.2⟩
    have place : (printedNumeral negative magnitude radix upper signed spec).radix = radix := rfl
    rw [place, lead]
    -- The alternate form shows hexadecimal by its prefix, and octal by its first zero.
    by_cases hex : spec.alt = true ∧ radix = 16
    · refine .inr ⟨?_, ?_, hex.2⟩
      · rw [if_pos ⟨hex.1, hex.2, zero⟩]
        cases upper with
        | false => exact .inl rfl
        | true => exact .inr rfl
      · rcases reads with rfl | ⟨rfl, -⟩
        · exact .inr hex.2
        · exact .inl rfl
    · refine .inl ⟨if_neg (fun h => hex ⟨h.1, h.2.1⟩), ?_⟩
      rcases reads with rfl | ⟨rfl, reads⟩
      · rcases known with rfl | rfl | rfl
        · rfl
        · rfl
        · rfl
      · rw [if_pos rfl]
        split at reads
        next decimal =>
          subst decimal
          have plain : (printedNumeral negative magnitude 10 upper signed spec).digits =
              numberText 10 magnitude := by
            unfold printedNumeral intPieces intLead
            dsimp only
            rw [reads.1, reads.2, if_neg Bool.false_ne_true, if_neg (by simp)]
            unfold intBody
            rw [if_neg (fun h => zero h.1)]
            rfl
          obtain ⟨c, t, e, first⟩ := numberText_head (by decide : 1 < 10) (by decide) magnitude
          rw [plain, e, List.head?_cons, if_neg (fun h => zero (first.mp (Option.some.inj h)))]
        next other =>
          have octal : radix = 8 := by
            rcases known with rfl | rfl | rfl
            · rfl
            · exact absurd rfl other
            · exact absurd ⟨reads, rfl⟩ hex
          subst octal
          rw [printed_octal reads, if_pos rfl]

/-- What an integer conversion prints is read back by `strtol` and `strtoul`: the value that was printed,
clamped by the one and reduced by the other. -/
theorem printed_reads (known : IntRadix radix) (reads : ReadBase spec radix base) :
    ∃ text : List Byte,
      (∀ k : Sink, fmtInt k negative magnitude radix upper signed spec = k.write text) ∧
      (strtol text base).1 = clampI64 (if negative then -magnitude else magnitude) ∧
      (strtoul text base).1 = if 2 ^ 64 ≤ magnitude then 2 ^ 64 - 1 else
        ((if negative then -magnitude else magnitude : Int) % 2 ^ 64).toNat := by
  obtain ⟨before, behind, blank, trail, text⟩ :=
    @text_eq_printed negative upper signed magnitude radix spec
  obtain ⟨sign, minus⟩ := @printedNumeral_sign negative upper signed magnitude radix spec
  refine ⟨before ++ ((printedNumeral negative magnitude radix upper signed spec).text ++ behind),
    fun k => ?_, ?_⟩
  · unfold fmtInt
    rw [emit_eq, ← text]
    rfl
  · by_cases none : (printedNumeral negative magnitude radix upper signed spec).digits = []
    · have zero : magnitude = 0 := by
        have value := (@printedNumeral_values negative upper signed magnitude radix spec known).2
        unfold Numeral.magnitude at value
        rw [none] at value
        exact value.symm
      have only : (printedNumeral negative magnitude radix upper signed spec).text =
          (printedNumeral negative magnitude radix upper signed spec).sign := by
        unfold Numeral.text
        rw [none, printed_lead, if_neg (fun h => h.2.2 zero), List.append_nil, List.append_nil]
      obtain ⟨signed, unsigned⟩ := strtol_blank sign blank trail base
      rw [only, signed, unsigned, zero]
      cases negative with
      | false => decide
      | true => decide
    · obtain ⟨n, form, same, mark, value⟩ := printed_form known reads none
      have whole : n.value = if negative then - (magnitude : Int) else magnitude := by
        unfold Numeral.value
        rw [mark, value]
        exact if_congr minus rfl rfl
      obtain ⟨signed, unsigned⟩ := strtol_between form blank trail
      rw [← same, signed, unsigned]
      unfold Numeral.clamped Numeral.unsigned
      rw [whole, value]
      exact ⟨rfl, rfl⟩

/-- The smallest 64-bit number is read from a field that is padded with zeros behind a sign, and a byte
from its alternate form. -/
theorem printed_reads_padded :
    (∃ text : List Byte,
      (∀ k : Sink, fmtInt k true (2 ^ 63) 10 false true ⟨false, true, false, false, false, 24, none⟩ =
        k.write text) ∧
      (strtol text 10).1 = clampI64 (if true then -(2 ^ 63 : Nat) else (2 ^ 63 : Nat)) ∧
      (strtoul text 10).1 = if 2 ^ 64 ≤ 2 ^ 63 then 2 ^ 64 - 1 else
        ((if true then -(2 ^ 63 : Nat) else (2 ^ 63 : Nat) : Int) % 2 ^ 64).toNat) ∧
    ∃ text : List Byte,
      (∀ k : Sink, fmtInt k false 255 16 true false ⟨true, false, false, false, true, 9, some 4⟩ =
        k.write text) ∧
      (strtol text 0).1 = clampI64 (if false then -(255 : Nat) else (255 : Nat)) ∧
      (strtoul text 0).1 = if 2 ^ 64 ≤ 255 then 2 ^ 64 - 1 else
        ((if false then -(255 : Nat) else (255 : Nat) : Int) % 2 ^ 64).toNat :=
  ⟨printed_reads (.inr (.inl rfl)) (.inl rfl), printed_reads (.inr (.inr rfl)) (.inr ⟨rfl, rfl⟩)⟩

end Printed

end Qcvm.Stdlib
import Qcvm.Stdlib.Sprintf

/-!
# The format language

What `sprintf` makes of a format that is written in the grammar of its directives: text, `%%` and
conversions with an argument position, flags, a width, a precision and length modifiers. The format is
read item by item, whatever follows (`sprintfLoop_items`), so that its output is that of its items one
after another and every item takes the arguments that the grammar says.
-/

namespace Qcvm.Stdlib

open Lib

/-! ## The grammar -/

/-- The flags `#`, `0`, `-`, space and `+`. -/
inductive Flag where
  | alt | zero | left | space | plus
  deriving DecidableEq, Repr

namespace Flag

def byte : Flag → Byte
  | alt => 35
  | zero => 48
  | left => 45
  | space => 32
  | plus => 43

/-- A flag in a spec. -/
def set (spec : Spec) : Flag → Spec
  | alt => { spec with alt := true }
  | zero => { spec with zero := true }
  | left => { spec with left := true }
  | space => { spec with space := true }
  | plus => { spec with plus := true }

end Flag

/-- The length modifiers. -/
inductive Modifier where
  | h | l | L | q | j | z | t
  deriving DecidableEq, Repr

namespace Modifier

def byte : Modifier → Byte
  | h => 104
  | l => 108
  | L => 76
  | q => 113
  | j => 106
  | z => 122
  | t => 116

/-- What a modifier says of the argument: whether it is a float, and whether it has 64 bits. -/
def apply (d : Directive) : Modifier → Directive
  | h => { d with isfloat := some true }
  | l | L => { d with isfloat := some false }
  | q => { d with is64 := true }
  | j | z | t => d

end Modifier

/-- A width or a precision: a number, or an argument, the next one or the one at a position. -/
inductive Amount where
  | number (n : Nat)
  | next
  | position (n : Nat)
  deriving DecidableEq, Repr

namespace Amount

def bytes : Amount → List Byte
  | number n => numberText 10 n
  | next => [starByte]
  | position n => starByte :: (numberText 10 n ++ [dollarByte])

/-- A number that an `int` holds; `least` is the smallest one that is no flag. -/
def Valid (least : Nat) : Amount → Prop
  | number n => least ≤ n ∧ n < 2 ^ 31
  | next => True
  | position n => n < 2 ^ 31

/-- The value of an amount. -/
def value (F : FloatOps) (args : FormatArgs) (argpos : Nat) : Amount → Word
  | number n => BitVec.ofNat 32 n
  | next => F.f2i (args.wordAt argpos)
  | position n => F.f2i (args.wordAt n)

/-- The next argument behind an amount. -/
def after (argpos : Nat) : Amount → Nat
  | next => argpos + 1
  | _ => argpos

end Amount

/-- A conversion in its parts. -/
structure Conversion where
  position : Option Nat
  flags : List Flag
  width : Option Amount
  precision : Option Amount
  modifiers : List Modifier
  letter : Byte

/-- The letters of the conversions: `d i o u x X p P e E f F g G v V c s S`. -/
def conversionLetters : List Byte :=
  [100, 105, 111, 117, 120, 88, 112, 80, 101, 69, 102, 70, 103, 71, 118, 86, 99, 115, 83]

/-- A byte that ends the part of a directive before its conversion. -/
def endsDirective (b : Byte) : Bool :=
  !isDigit b && !List.contains [35, 45, 32, 43, starByte, dollarByte, pointByte, percentByte, 104, 108, 76,
    113, 106, 122, 116] b

namespace Conversion

/-- A conversion as it is written, without its letter. -/
def front (c : Conversion) : List Byte :=
  c.position.elim [] (fun n => numberText 10 n ++ [dollarByte]) ++
    (c.flags.map Flag.byte ++ (c.width.elim [] Amount.bytes ++
      (c.precision.elim [] (fun a => pointByte :: a.bytes) ++ c.modifiers.map Modifier.byte)))

/-- A conversion as it is written. -/
def bytes (c : Conversion) : List Byte := percentByte :: (c.front ++ [c.letter])

/-- Numbers that an `int` holds; the first digit of a width is none that would be a flag. -/
structure Valid (c : Conversion) : Prop where
  position : ∀ n ∈ c.position, n < 2 ^ 31
  width : ∀ a ∈ c.width, a.Valid 1
  precision : ∀ a ∈ c.precision, a.Valid 0
  letter : endsDirective c.letter = true

/-- The arguments that the width takes. -/
def afterWidth (c : Conversion) (argpos : Nat) : Nat := c.width.elim argpos (Amount.after argpos)

/-- The arguments that width and precision take. -/
def afterPrecision (c : Conversion) (argpos : Nat) : Nat :=
  c.precision.elim (c.afterWidth argpos) (Amount.after (c.afterWidth argpos))

/-- What a conversion says: the flags, then the width, the precision and the modifiers. -/
def directive (F : FloatOps) (args : FormatArgs) (c : Conversion) (argpos : Nat) : Directive :=
  let d : Directive :=
    { Directive.new with
      spec := c.flags.foldl Flag.set plainSpec
      thisarg := c.position.elim (-1) (fun n => (n : Int)) }
  let d := c.width.elim d fun a => d.setWidth (a.value F args argpos)
  let d := c.precision.elim d fun a => { d with prec := a.value F args (c.afterWidth argpos) }
  c.modifiers.foldl Modifier.apply d

end Conversion

/-- An item of a format: a byte of text, `%%` or a conversion. -/
inductive FormatItem where
  | text (b : Byte)
  | percent
  | conversion (c : Conversion)

namespace FormatItem

/-- An item as it is written. -/
def bytes : FormatItem → List Byte
  | text b => [b]
  | percent => [percentByte, percentByte]
  | conversion c => c.bytes

/-- Text has no `%`; the letter of a conversion is one that there is. -/
def Valid : FormatItem → Prop
  | text b => b ≠ percentByte
  | percent => True
  | conversion c => c.Valid ∧ c.letter ∈ conversionLetters

/-- What an item prints, and the next argument behind it. -/
def emit (F : FloatOps) (cs : Charset) (args : FormatArgs) (st : Sink × Nat) : FormatItem → Sink × Nat
  | text b => (st.1.push b, st.2)
  | percent => (st.1.push percentByte, st.2)
  | conversion c =>
    ((c.directive F args st.2).emit F cs args st.1 (c.afterPrecision st.2) c.letter).getD st

end FormatItem

/-! ## Numbers -/

variable {F : FloatOps} {cs : Charset} {args : FormatArgs} {d : Directive} {n j argpos : Nat}
  {s t u : List Byte} {spec : Spec} {b : Byte} {k : Sink}

/-- The digits of a number that does not overflow. -/
lemma parseDigits_append (digits : ∀ c ∈ s, isDigit c = true) (stop : u.head?.any isDigit = false)
    (v : Nat) (small : s.foldl (fun v c => v * 10 + (c - 48).toNat) v < 2 ^ 31) :
    parseDigits v (s ++ u) = (((s.foldl (fun v c => v * 10 + (c - 48).toNat) v : Nat) : Int), u) := by
  induction s generalizing v with
  | nil =>
    cases u with
    | nil => rfl
    | cons c u =>
      rw [List.nil_append, parseDigits, if_neg]
      · rfl
      · rw [List.head?_cons, Option.any_some] at stop
        rw [stop]
        exact Bool.false_ne_true
  | cons c s ih =>
    have grows (v : Nat) (s : List Byte) : v ≤ s.foldl (fun v c => v * 10 + (c - 48).toNat) v := by
      induction s generalizing v with
      | nil => exact Nat.le_refl v
      | cons c s ih =>
        refine le_trans ?_ (ih (v * 10 + (c - 48).toNat))
        omega
    rw [List.foldl_cons] at small ⊢
    have step := grows (v * 10 + (c - 48).toNat) s
    rw [List.cons_append, parseDigits, if_pos (digits c List.mem_cons_self),
      mulI64_eq (by omega) (by omega), addI64_eq (by omega) (by omega)]
    exact_mod_cast ih (fun c mem => digits c (List.mem_cons_of_mem _ mem)) _ small

/-- A digit is one of a decimal number. -/
lemma isDigit_iff : ∀ c : Byte, isDigit c = (digitOf 10 c).isSome := by decide

/-- The value of a decimal digit. -/
lemma digitOf_ten : ∀ c : Byte, (digitOf 10 c).isSome → (digitOf 10 c).getD 0 = (c - 48).toNat := by
  decide

/-- A number is read back, with zeros in front of it or not. -/
lemma parseInt_number (small : n < 2 ^ 31) (stop : u.head?.any isDigit = false) (j : Nat) :
    parseInt (List.replicate j zeroDigit ++ (numberText 10 n ++ u)) = (BitVec.ofNat 32 n, u) := by
  have digits : ∀ c ∈ List.replicate j zeroDigit ++ numberText 10 n, (digitOf 10 c).isSome := by
    intro c mem
    rcases List.mem_append.mp mem with zero | digit
    · rw [List.eq_of_mem_replicate zero]
      decide
    · exact numberText_digits (by decide) (by decide) n c digit
  have value : (List.replicate j zeroDigit ++ numberText 10 n).foldl
      (fun v c => v * 10 + (c - 48).toNat) 0 = n := by
    have same : (List.replicate j zeroDigit ++ numberText 10 n).foldl
        (fun v c => v * 10 + (c - 48).toNat) 0
        = (List.replicate j zeroDigit ++ numberText 10 n).foldl
          (fun v c => v * 10 + (digitOf 10 c).getD 0) 0 :=
      List.foldl_ext _ _ _ fun v c mem => by rw [digitOf_ten c (digits c mem)]
    have zero : (digitOf 10 zeroDigit).getD 0 = 0 := by decide
    rw [same, foldl_eq_ofDigits, List.map_append, List.reverse_append, List.map_replicate, zero,
      List.reverse_replicate, Nat.ofDigits_append_replicate_zero]
    exact ofDigits_numberText (by decide) (by decide) n
  have read := parseDigits_append (fun c mem => (isDigit_iff c).trans (digits c mem)) stop 0
    (by rwa [value])
  rw [value, List.append_assoc] at read
  unfold parseInt
  rw [show (0 : Int) = ((0 : Nat) : Int) from rfl, read]
  rfl

/-- A number starts with a digit, and with a zero only if it is zero. -/
lemma numberText_start (n : Nat) (u : List Byte) : ∃ c s, numberText 10 n ++ u = c :: s ∧
    isDigit c = true ∧ (c = zeroDigit ↔ n = 0) := by
  obtain ⟨c, s, e, zero⟩ := numberText_head (by decide : 1 < 10) (by decide) n
  refine ⟨c, s ++ u, by rw [e]; rfl, ?_, zero⟩
  rw [isDigit_iff]
  exact numberText_digits (by decide) (by decide) n c (by rw [e]; exact List.mem_cons_self)

/-! ## Flags and modifiers -/

/-- A byte that is no flag. -/
def notFlag (b : Byte) : Bool := !List.contains [35, 48, 45, 32, 43] b

/-- A byte that is no modifier. -/
def notModifier (b : Byte) : Bool := !List.contains [104, 108, 76, 113, 106, 122, 116] b

/-- Flags are read up to a byte that is none. -/
lemma readFlags_append (flags : List Flag) (spec : Spec) (stop : u.head?.all notFlag = true) :
    readFlags spec (flags.map Flag.byte ++ u) = (flags.foldl Flag.set spec, u) := by
  induction flags generalizing spec with
  | nil =>
    cases u with
    | nil => rfl
    | cons b u =>
      have none : notFlag b = true := stop
      unfold notFlag at none
      simp only [List.contains_cons, List.contains_nil, Bool.or_false, Bool.not_eq_true',
        Bool.or_eq_false_iff, beq_eq_false_iff_ne] at none
      obtain ⟨alt, zero, left, space, plus⟩ := none
      rw [List.map_nil, List.nil_append, readFlags, if_neg alt, if_neg zero, if_neg left, if_neg space,
        if_neg plus]
      rfl
  | cons f flags ih =>
    rw [List.map_cons, List.cons_append, List.foldl_cons, ← ih]
    cases f with
    | alt => rfl
    | zero => rfl
    | left => rfl
    | space => rfl
    | plus => rfl

/-- Modifiers are read up to a byte that is none. -/
lemma readModifiers_append (modifiers : List Modifier) (d : Directive)
    (stop : u.head?.all notModifier = true) :
    readModifiers d (modifiers.map Modifier.byte ++ u) = (modifiers.foldl Modifier.apply d, u) := by
  induction modifiers generalizing d with
  | nil =>
    cases u with
    | nil => rfl
    | cons b u =>
      have none : notModifier b = true := stop
      unfold notModifier at none
      simp only [List.contains_cons, List.contains_nil, Bool.or_false, Bool.not_eq_true',
        Bool.or_eq_false_iff, beq_eq_false_iff_ne] at none
      obtain ⟨h, l, L, q, j, z, t⟩ := none
      rw [List.map_nil, List.nil_append, readModifiers, if_neg h, if_neg (not_or.mpr ⟨l, L⟩), if_neg q,
        if_neg (not_or.mpr ⟨j, not_or.mpr ⟨z, t⟩⟩)]
      rfl
  | cons m modifiers ih =>
    rw [List.map_cons, List.cons_append, List.foldl_cons, ← ih]
    cases m with
    | h => rfl
    | l => rfl
    | L => rfl
    | q => rfl
    | j => rfl
    | z => rfl
    | t => rfl

/-! ## Widths and precisions -/

/-- A byte that does not go on with a number, an amount or flags. -/
def stopsAmount (b : Byte) : Bool := !isDigit b && notFlag b && b != starByte && b != dollarByte

/-- What follows an amount. -/
def Stops (u : List Byte) : Prop := u.head?.all stopsAmount = true

/-- What stops an amount is no digit. -/
lemma Stops.digit (h : Stops u) : u.head?.any isDigit = false := by
  cases u with
  | nil => rfl
  | cons b u =>
    have all : ∀ b : Byte, stopsAmount b = true → isDigit b = false := by decide
    exact all b h

/-- What stops an amount is no flag. -/
lemma Stops.flag (h : Stops u) : u.head?.all notFlag = true := by
  cases u with
  | nil => rfl
  | cons b u =>
    have all : ∀ b : Byte, stopsAmount b = true → notFlag b = true := by decide
    exact all b h

/-- What stops an amount is no star. -/
lemma Stops.star (h : Stops u) : u.head? ≠ some starByte := by
  intro e
  unfold Stops at h
  rw [e] at h
  exact Bool.false_ne_true h

/-- What stops an amount is no dollar. -/
lemma Stops.dollar (h : Stops u) : u.head? ≠ some dollarByte := by
  intro e
  unfold Stops at h
  rw [e] at h
  exact Bool.false_ne_true h

/-- A small number is its own word. -/
lemma toInt_ofNat (small : n < 2 ^ 31) : (BitVec.ofNat 32 n).toInt = n := by
  rw [BitVec.toInt_eq_toNat_of_lt]
  · rw [BitVec.toNat_ofNat, Nat.mod_eq_of_lt (by omega)]
  · rw [BitVec.toNat_ofNat, Nat.mod_eq_of_lt (by omega)]
    omega

/-- A small number is not negative. -/
lemma ofNat_not_slt (small : n < 2 ^ 31) : (BitVec.ofNat 32 n).slt 0 = false := by
  have value := toInt_ofNat small
  unfold BitVec.slt
  rw [value]
  exact decide_eq_false (show ¬(n : Int) < 0 by omega)

/-- A number with a `$`. -/
lemma parseInt_dollar (small : n < 2 ^ 31) (u : List Byte) :
    parseInt (numberText 10 n ++ dollarByte :: u) = (BitVec.ofNat 32 n, dollarByte :: u) :=
  parseInt_number (u := dollarByte :: u) small rfl 0

/-- A number starts with a digit. -/
lemma digitNext_number (n : Nat) (u : List Byte) : digitNext (numberText 10 n ++ u) = true := by
  obtain ⟨c, s, e, digit, -⟩ := numberText_start n u
  rw [e]
  exact digit

/-- A star without a position takes the next argument. -/
lemma readStar_next (stop : Stops u) : readStar argpos u = some ((argpos : Int), argpos + 1, u) := by
  unfold readStar
  rw [if_neg]
  unfold digitNext
  rw [stop.digit]
  exact Bool.false_ne_true

/-- A star with a position takes the argument there. -/
lemma readStar_position (small : n < 2 ^ 31) :
    readStar argpos (numberText 10 n ++ dollarByte :: u) = some ((n : Int), argpos, u) := by
  unfold readStar
  rw [if_pos (digitNext_number n _), parseInt_dollar small]
  dsimp only
  rw [List.head?_cons, if_pos rfl, toInt_ofNat small]
  rfl

/-- The width is read behind the flags. -/
lemma readWidth_append {flags : List Flag} {width : Option Amount} (given : d.width.slt 0 = true)
    (valid : ∀ a ∈ width, a.Valid 1) (stop : Stops u) :
    readWidth F args d argpos (flags.map Flag.byte ++ (width.elim [] Amount.bytes ++ u)) =
      let d : Directive := { d with spec := flags.foldl Flag.set d.spec }
      some (width.elim d fun a => d.setWidth (a.value F args argpos),
        width.elim argpos (Amount.after argpos), u) := by
  unfold readWidth
  rw [if_pos given]
  cases width with
  | none =>
    rw [Option.elim_none, List.nil_append, readFlags_append flags d.spec stop.flag]
    dsimp only
    rw [if_neg stop.star, if_neg (by unfold digitNext; rw [stop.digit]; exact Bool.false_ne_true)]
    rfl
  | some a =>
    rw [Option.elim_some]
    cases a with
    | number n =>
      obtain ⟨pos, small⟩ := valid _ rfl
      obtain ⟨c, s, e, digit, zero⟩ := numberText_start n u
      have flag : (numberText 10 n ++ u).head?.all notFlag = true := by
        have all : ∀ c : Byte, isDigit c = true → c ≠ zeroDigit → notFlag c = true := by decide
        rw [e]
        exact all c digit fun same => by have := zero.mp same; omega
      have star : (numberText 10 n ++ u).head? ≠ some starByte := by
        rw [e, List.head?_cons]
        intro same
        cases same
        exact Bool.false_ne_true digit
      have read := parseInt_number small stop.digit 0
      rw [List.replicate_zero, List.nil_append] at read
      show _ = some (Directive.setWidth _ (BitVec.ofNat 32 n), argpos, u)
      rw [Amount.bytes, readFlags_append flags d.spec flag]
      dsimp only
      rw [if_neg star, if_pos (digitNext_number n u), read]
    | next =>
      show _ = some (Directive.setWidth _ (F.f2i (args.wordAt argpos)), argpos + 1, u)
      rw [Amount.bytes, List.singleton_append, readFlags_append flags d.spec rfl]
      dsimp only
      rw [List.head?_cons, if_pos rfl, List.tail_cons, readStar_next stop]
      rfl
    | position n =>
      show _ = some (Directive.setWidth _ (F.f2i (args.wordAt n)), argpos, u)
      rw [Amount.bytes, List.cons_append, List.append_assoc, List.singleton_append,
        readFlags_append flags d.spec rfl]
      dsimp only
      rw [List.head?_cons, if_pos rfl, List.tail_cons, readStar_position (valid _ rfl)]
      rfl

/-- The precision is read behind its point. -/
lemma readPrecision_append {precision : Option Amount} (valid : ∀ a ∈ precision, a.Valid 0)
    (stop : Stops u) (noPoint : u.head? ≠ some pointByte) :
    readPrecision F args d argpos (precision.elim [] (fun a => pointByte :: a.bytes) ++ u) =
      some (precision.elim d fun a => { d with prec := a.value F args argpos },
        precision.elim argpos (Amount.after argpos), u) := by
  unfold readPrecision
  cases precision with
  | none =>
    rw [Option.elim_none, List.nil_append, if_neg noPoint]
    rfl
  | some a =>
    rw [Option.elim_some, List.cons_append, List.head?_cons, if_pos rfl, List.tail_cons]
    dsimp only
    cases a with
    | number n =>
      obtain ⟨c, s, e, digit, -⟩ := numberText_start n u
      have star : (numberText 10 n ++ u).head? ≠ some starByte := by
        rw [e, List.head?_cons]
        intro same
        cases same
        exact Bool.false_ne_true digit
      have read := parseInt_number (valid _ rfl).2 stop.digit 0
      rw [List.replicate_zero, List.nil_append] at read
      rw [Amount.bytes, if_neg star, if_pos (digitNext_number n u), read]
      rfl
    | next =>
      rw [Amount.bytes, List.singleton_append, List.head?_cons, if_pos rfl, List.tail_cons,
        readStar_next stop]
      rfl
    | position n =>
      rw [Amount.bytes, List.cons_append, List.append_assoc, List.singleton_append,
        List.head?_cons, if_pos rfl, List.tail_cons, readStar_position (valid _ rfl)]
      rfl

/-! ## Directives -/

/-- A small number is a width as it is. -/
lemma setWidth_number (small : n < 2 ^ 31) (d : Directive) :
    d.setWidth (BitVec.ofNat 32 n) = { d with width := BitVec.ofNat 32 n } := by
  unfold Directive.setWidth
  rw [if_neg (by rw [ofNat_not_slt small]; exact Bool.false_ne_true)]

/-- The zeros that flags start with. -/
lemma leading_zeros (flags : List Flag) :
    ∃ j fs, flags = List.replicate j Flag.zero ++ fs ∧ fs.head? ≠ some Flag.zero := by
  induction flags with
  | nil => exact ⟨0, [], rfl, nofun⟩
  | cons f flags ih =>
    by_cases zero : f = Flag.zero
    · obtain ⟨j, fs, rfl, head⟩ := ih
      exact ⟨j + 1, fs, by rw [zero, List.replicate_succ, List.cons_append], head⟩
    · exact ⟨0, f :: flags, rfl, fun same => zero (Option.some.inj same)⟩

/-- Zeros at the start are the flag `0`. -/
lemma foldl_zeros (j : Nat) (spec : Spec) :
    (List.replicate (j + 1) Flag.zero).foldl Flag.set spec = { spec with zero := true } := by
  induction j generalizing spec with
  | zero => rfl
  | succ j ih =>
    rw [List.replicate_succ, List.foldl_cons, ih]
    rfl

/-- Zeros that nothing follows which would make a number of them. -/
lemma readPosition_zeros (j : Nat) (digit : t.head?.any isDigit = false)
    (dollar : t.head? ≠ some dollarByte) :
    readPosition .new (List.replicate (j + 1) zeroDigit ++ t)
      = ({ Directive.new with spec := { plainSpec with zero := true } }, t) := by
  have read : parseInt (List.replicate (j + 1) zeroDigit ++ t) = (0, t) := by
    have zeros := parseInt_number (n := 0) (by decide) digit j
    have zero : numberText 10 0 = [zeroDigit] := rfl
    rw [zero, ← List.append_assoc, ← List.replicate_succ'] at zeros
    exact zeros
  unfold readPosition
  rw [if_pos (by rw [List.replicate_succ]; rfl), read]
  dsimp only
  rw [if_neg dollar, if_pos (by rw [List.replicate_succ]; rfl), if_pos rfl]
  rfl

namespace Conversion

variable {c : Conversion}

/-- What position, flags and width say. -/
def widthDirective (F : FloatOps) (args : FormatArgs) (c : Conversion) (argpos : Nat) : Directive :=
  let d : Directive :=
    { Directive.new with
      spec := c.flags.foldl Flag.set plainSpec
      thisarg := c.position.elim (-1) (fun n => (n : Int)) }
  c.width.elim d fun a => d.setWidth (a.value F args argpos)

/-- What follows the flags neither goes on with a number nor ends a position. -/
lemma behind_flags (valid : ∀ a ∈ c.width, a.Valid 1) (stop : Stops u) :
    (c.width.elim [] Amount.bytes ++ u).head? ≠ some dollarByte ∧
      ((c.width.elim [] Amount.bytes ++ u).head?.any isDigit = false ∨
        ∃ n, c.width = some (.number n) ∧ 1 ≤ n ∧ n < 2 ^ 31) := by
  cases width : c.width with
  | none => exact ⟨stop.dollar, .inl stop.digit⟩
  | some a =>
    cases a with
    | number n =>
      obtain ⟨c, s, e, digit, -⟩ := numberText_start n u
      refine ⟨?_, .inr ⟨n, rfl, valid _ width⟩⟩
      rw [Option.elim_some, Amount.bytes, e, List.head?_cons]
      intro same
      cases same
      exact Bool.false_ne_true digit
    | next => exact ⟨nofun, .inl rfl⟩
    | position n => exact ⟨nofun, .inl rfl⟩

/-- A conversion and the text behind it. -/
lemma bytes_append (c : Conversion) (u : List Byte) :
    c.bytes ++ u = percentByte :: (c.front ++ c.letter :: u) := by
  show percentByte :: (c.front ++ [c.letter] ++ u) = _
  rw [List.append_assoc, List.singleton_append]

/-- Position, flags and width are read as they are written. -/
lemma read_width (valid : c.Valid) (stop : Stops u) :
    (fun r : Directive × List Byte => readWidth F args r.1 argpos r.2)
        (readPosition .new (c.position.elim [] (fun n => numberText 10 n ++ [dollarByte]) ++
          (c.flags.map Flag.byte ++ (c.width.elim [] Amount.bytes ++ u))))
      = some (c.widthDirective F args argpos, c.afterWidth argpos, u) := by
  dsimp only
  obtain ⟨position, flags, width, precision, modifiers, letter⟩ := c
  have behind := behind_flags valid.width stop
  have positions := valid.position
  have widths := valid.width
  unfold widthDirective afterWidth
  dsimp only at behind positions widths ⊢
  cases position with
  | some n =>
    have small := positions n rfl
    have read : readPosition .new ((some n).elim [] (fun n => numberText 10 n ++ [dollarByte]) ++
        (flags.map Flag.byte ++ (width.elim [] Amount.bytes ++ u)))
        = ({ Directive.new with thisarg := n },
          flags.map Flag.byte ++ (width.elim [] Amount.bytes ++ u)) := by
      rw [Option.elim_some, List.append_assoc, List.singleton_append]
      unfold readPosition
      rw [if_pos (digitNext_number n _), parseInt_dollar small]
      dsimp only
      rw [List.head?_cons, if_pos rfl, toInt_ofNat small, List.tail_cons]
    rw [read]
    exact readWidth_append rfl widths stop
  | none =>
    rw [Option.elim_none, List.nil_append]
    obtain ⟨j, fs, rfl, head⟩ := leading_zeros flags
    have bytes : (List.replicate j Flag.zero ++ fs).map Flag.byte
        = List.replicate j zeroDigit ++ fs.map Flag.byte := by
      rw [List.map_append, List.map_replicate]
      rfl
    rw [bytes, List.append_assoc]
    have tail : (fs.map Flag.byte ++ (width.elim [] Amount.bytes ++ u)).head? ≠ some dollarByte ∧
        ((fs.map Flag.byte ++ (width.elim [] Amount.bytes ++ u)).head?.any isDigit = false ∨
          fs = [] ∧ ∃ n, width = some (.number n) ∧ 1 ≤ n ∧ n < 2 ^ 31) := by
      cases fs with
      | nil => exact ⟨behind.1, behind.2.imp id fun number => ⟨rfl, number⟩⟩
      | cons f fs =>
        cases f with
        | zero => exact absurd rfl head
        | alt => exact ⟨nofun, .inl rfl⟩
        | left => exact ⟨nofun, .inl rfl⟩
        | space => exact ⟨nofun, .inl rfl⟩
        | plus => exact ⟨nofun, .inl rfl⟩
    obtain ⟨dollar, digit | ⟨rfl, n, rfl, pos, small⟩⟩ := tail
    · -- The flags that are left are read with the width.
      cases j with
      | zero =>
        have read : readPosition .new (fs.map Flag.byte ++ (width.elim [] Amount.bytes ++ u))
            = (.new, fs.map Flag.byte ++ (width.elim [] Amount.bytes ++ u)) := by
          unfold readPosition
          rw [if_neg]
          unfold digitNext
          rw [digit]
          exact Bool.false_ne_true
        rw [List.replicate_zero, List.nil_append, read]
        exact readWidth_append rfl widths stop
      -- Zeros at the start were read as a position, and are the flag `0`.
      | succ j =>
        rw [readPosition_zeros j digit dollar, List.foldl_append, foldl_zeros]
        exact readWidth_append rfl widths stop
    · -- The zeros and the width are one number.
      have read := parseInt_number small stop.digit j
      have given : (BitVec.ofNat 32 n).slt 0 = false := ofNat_not_slt small
      have some' : BitVec.ofNat 32 n ≠ 0 := by
        intro same
        have value := toInt_ofNat small
        rw [same] at value
        have zero : (0 : Word).toInt = 0 := rfl
        omega
      have next : digitNext (List.replicate j zeroDigit ++ (numberText 10 n ++ u)) = true := by
        cases j with
        | zero => exact digitNext_number n u
        | succ j => rfl
      have reads : readPosition .new (List.replicate j zeroDigit ++ (numberText 10 n ++ u))
          = ({ Directive.new with
              spec := (List.replicate j Flag.zero).foldl Flag.set plainSpec
              width := BitVec.ofNat 32 n }, u) := by
        unfold readPosition
        rw [if_pos next, read]
        dsimp only
        rw [if_neg stop.dollar]
        cases j with
        | zero =>
          obtain ⟨c, s, e, -, zero⟩ := numberText_start n u
          rw [if_neg]
          · rfl
          · rw [List.replicate_zero, List.nil_append, e, List.head?_cons]
            intro same
            have := zero.mp (Option.some.inj same)
            omega
        | succ j =>
          rw [if_pos (by rw [List.replicate_succ]; rfl), if_neg some', foldl_zeros]
          rfl
      rw [List.map_nil, List.nil_append, Option.elim_some, Amount.bytes, reads, List.append_nil]
      unfold readWidth
      dsimp only
      rw [if_neg (by rw [given]; exact Bool.false_ne_true), Option.elim_some, Amount.value,
        setWidth_number small]
      rfl

/-- What follows the precision. -/
lemma stops_modifiers (valid : c.Valid) (u : List Byte) :
    Stops (c.modifiers.map Modifier.byte ++ c.letter :: u) ∧
      (c.modifiers.map Modifier.byte ++ c.letter :: u).head? ≠ some pointByte ∧
      notModifier c.letter = true := by
  have ends : ∀ b : Byte, endsDirective b = true →
      stopsAmount b = true ∧ b ≠ pointByte ∧ notModifier b = true := by decide
  obtain ⟨stops, point, modifier⟩ := ends c.letter valid.letter
  cases c.modifiers with
  | nil => exact ⟨stops, fun same => point (Option.some.inj same), modifier⟩
  | cons m ms =>
    have none (m : Modifier) : stopsAmount m.byte = true ∧ m.byte ≠ pointByte := by
      cases m with
      | h | l | L | q | j | z | t => decide
    exact ⟨(none m).1, fun same => (none m).2 (Option.some.inj same), modifier⟩

/-- A conversion is read as it is written. -/
lemma read (valid : c.Valid) (argpos : Nat) (u : List Byte) :
    readDirective F args argpos (c.front ++ c.letter :: u)
      = some (c.directive F args argpos, c.afterPrecision argpos, c.letter :: u) := by
  obtain ⟨stops, point, modifier⟩ := stops_modifiers valid u
  have stopsPrecision : Stops (c.precision.elim [] (fun a => pointByte :: a.bytes) ++
      (c.modifiers.map Modifier.byte ++ c.letter :: u)) := by
    cases c.precision with
    | none => exact stops
    | some a => exact (by decide : stopsAmount pointByte = true)
  have width := @read_width F args argpos _ c valid stopsPrecision
  dsimp only at width
  unfold readDirective front
  simp only [List.append_assoc]
  rw [width, Option.bind_some, readPrecision_append valid.precision stops point, Option.map_some,
    readModifiers_append (u := c.letter :: u) c.modifiers _ modifier]
  rfl

/-- A directive does not start like an escaped `%`. -/
lemma front_head (valid : c.Valid) (u : List Byte) :
    (c.front ++ c.letter :: u).head? ≠ some percentByte := by
  obtain ⟨stops, -, -⟩ := stops_modifiers valid u
  have letter : c.letter ≠ percentByte := by
    have all : ∀ b : Byte, endsDirective b = true → b ≠ percentByte := by decide
    exact all _ valid.letter
  have flags (f : Flag) : f.byte ≠ percentByte := by
    cases f with
    | alt | zero | left | space | plus => decide
  have modifiers (m : Modifier) : m.byte ≠ percentByte := by
    cases m with
    | h | l | L | q | j | z | t => decide
  have number (n : Nat) (t : List Byte) : (numberText 10 n ++ t).head? ≠ some percentByte := by
    obtain ⟨c, s, e, digit, -⟩ := numberText_start n t
    rw [e, List.head?_cons]
    intro same
    cases same
    exact Bool.false_ne_true digit
  unfold front
  simp only [List.append_assoc]
  cases c.position with
  | some n =>
    rw [Option.elim_some, List.append_assoc]
    exact number n _
  | none =>
    cases c.flags with
    | cons f fs => exact fun same => flags f (Option.some.inj same)
    | nil =>
      cases c.width with
      | some a =>
        cases a with
        | number n => exact number n _
        | next => exact nofun
        | position n => exact nofun
      | none =>
        cases c.precision with
        | some a => exact nofun
        | none =>
          cases c.modifiers with
          | cons m ms => exact fun same => modifiers m (Option.some.inj same)
          | nil => exact fun same => letter (Option.some.inj same)

end Conversion

/-! ## Formats -/

/-- A letter of the grammar has a conversion. -/
lemma convert_isSome {letter : Byte} (known : letter ∈ conversionLetters) (k : Sink) (spec : Spec)
    (is64 isfloat : Bool) (a : Int) :
    (convert F cs args k letter spec is64 isfloat a).isSome = true := by
  simp only [conversionLetters, List.mem_cons, List.not_mem_nil, or_false] at known
  rcases known with rfl | rfl | rfl | rfl | rfl | rfl | rfl | rfl | rfl | rfl | rfl | rfl | rfl | rfl |
    rfl | rfl | rfl | rfl | rfl
  all_goals rfl

/-- An unknown letter has none. -/
lemma convert_unknown {letter : Byte} (unknown : letter ∉ conversionLetters) (k : Sink) (spec : Spec)
    (is64 isfloat : Bool) (a : Int) : convert F cs args k letter spec is64 isfloat a = none := by
  simp only [conversionLetters, List.mem_cons, List.not_mem_nil, or_false, not_or] at unknown
  obtain ⟨d, i, o, u, x, X, p, P, e, E, f, F', g, G, v, V, c, s, S⟩ := unknown
  unfold convert
  rw [if_neg (not_or.mpr ⟨d, i⟩), if_neg (by simp only [not_or]; exact ⟨o, u, x, X, p, P⟩),
    if_neg (by simp only [not_or]; exact ⟨e, E, f, F', g, G⟩), if_neg (not_or.mpr ⟨v, V⟩), if_neg c,
    if_neg (not_or.mpr ⟨s, S⟩)]

/-- A known conversion is put out. -/
lemma emit_isSome {letter : Byte} (known : letter ∈ conversionLetters) (d : Directive) (k : Sink)
    (argpos : Nat) : (d.emit F cs args k argpos letter).isSome = true := by
  unfold Directive.emit
  dsimp only
  split
  next =>
    rw [Option.isSome_map]
    exact convert_isSome known k _ _ _ _
  next => rfl

/-- An unknown conversion is refused, where there is room. -/
lemma emit_unknown {letter : Byte} (unknown : letter ∉ conversionLetters) (room : 0 < k.room)
    (d : Directive) (argpos : Nat) : d.emit F cs args k argpos letter = none := by
  unfold Directive.emit
  dsimp only
  rw [if_pos room, convert_unknown unknown]
  rfl

/-- One item of a format. -/
lemma sprintfLoop_item {item : FormatItem} (valid : item.Valid) (k : Sink) (argpos : Nat)
    (u : List Byte) :
    sprintfLoop F cs args k argpos (item.bytes ++ u) =
      sprintfLoop F cs args (item.emit F cs args (k, argpos)).1 (item.emit F cs args (k, argpos)).2
        u := by
  cases item with
  | text b => exact sprintfLoop_text valid
  | percent => exact sprintfLoop_percent rfl
  | conversion c =>
    obtain ⟨valid, known⟩ := valid
    obtain ⟨st, emits⟩ := Option.isSome_iff_exists.mp (@emit_isSome F cs args c.letter known
      (c.directive F args argpos) k (c.afterPrecision argpos))
    have written : (FormatItem.conversion c).bytes ++ u
        = percentByte :: (c.front ++ c.letter :: u) := c.bytes_append u
    have emitted : (FormatItem.conversion c).emit F cs args (k, argpos) = st := by
      unfold FormatItem.emit
      dsimp only
      rw [emits]
      rfl
    rw [written, emitted]
    exact sprintfLoop_directive (Conversion.front_head valid u) (Conversion.read valid argpos u) emits

/-- The items of a format one after another, whatever follows. -/
lemma sprintfLoop_items {items : List FormatItem} (valid : ∀ item ∈ items, item.Valid) (k : Sink)
    (argpos : Nat) (u : List Byte) :
    sprintfLoop F cs args k argpos (items.flatMap FormatItem.bytes ++ u) =
      let st := items.foldl (FormatItem.emit F cs args) (k, argpos)
      sprintfLoop F cs args st.1 st.2 u := by
  induction items generalizing k argpos with
  | nil => rfl
  | cons item items ih =>
    rw [List.flatMap_cons, List.append_assoc, sprintfLoop_item (valid item List.mem_cons_self),
      ih (fun i mem => valid i (List.mem_cons_of_mem _ mem)), List.foldl_cons]

/-- `sprintf` has the meaning of its grammar. A format that is written in it prints its items one after
another, each with the arguments that the grammar gives it, and no warning; and up to the first
conversion with an unknown letter it prints what comes before it, and warns with the format from there
on. -/
theorem sprintf_reads (F : FloatOps) (cs : Charset) (args : FormatArgs) {items : List FormatItem}
    (valid : ∀ item ∈ items, item.Valid) :
    let st := items.foldl (FormatItem.emit F cs args) (.new sprintfMax (by decide), 1)
    (args.str 0 = items.flatMap FormatItem.bytes → sprintfImpl F cs args = (st.1.buf, none)) ∧
      ∀ (c : Conversion) (u : List Byte), c.Valid → c.letter ∉ conversionLetters → 0 < st.1.room →
        args.str 0 = items.flatMap FormatItem.bytes ++ (c.bytes ++ u) →
          sprintfImpl F cs args = (st.1.buf, some (c.bytes ++ u)) := by
  dsimp only
  constructor
  · intro format
    have loop := @sprintfLoop_items F cs args items valid (.new sprintfMax (by decide)) 1 []
    dsimp only at loop
    rw [List.append_nil, sprintfLoop] at loop
    unfold sprintfImpl
    rw [format, loop]
  · intro c u readable unknown room format
    have loop := @sprintfLoop_items F cs args items valid (.new sprintfMax (by decide)) 1 (c.bytes ++ u)
    dsimp only at loop
    rw [c.bytes_append, sprintfLoop_unknown (Conversion.front_head readable u)
      (Conversion.read readable _ u) (emit_unknown unknown room _ _)] at loop
    unfold sprintfImpl
    rw [format, c.bytes_append, loop]

/-- `A%1$-05.*hd`: a position, two flags, a width, a precision from an argument and a modifier. -/
theorem sprintf_reads_positional : ∃ (args : FormatArgs) (items : List FormatItem),
    args.str 0 = [65, 37, 49, 36, 45, 48, 53, 46, 42, 104, 100] ∧
      items.flatMap FormatItem.bytes = args.str 0 ∧
      sprintfImpl .onZero ⟨false, .quake⟩ args = ((items.foldl
        (FormatItem.emit .onZero ⟨false, .quake⟩ args) (.new sprintfMax (by decide), 1)).1.buf, none) := by
  have valid : ∀ item ∈ [.text 65, .conversion ⟨some 1, [.left, .zero], some (.number 5), some .next,
      [.h], 100⟩], FormatItem.Valid item := by
    intro item mem
    rcases List.mem_cons.mp mem with rfl | mem
    · exact (by decide : (65 : Byte) ≠ percentByte)
    · obtain rfl := List.mem_singleton.mp mem
      refine ⟨⟨fun n e => ?_, fun a e => ?_, fun a e => ?_, by decide⟩, by decide⟩
      · cases e
        decide
      · cases e
        exact ⟨by decide, by decide⟩
      · cases e
        trivial
  exact ⟨⟨3, fun _ => (0, 0, 0), fun _ => [65, 37, 49, 36, 45, 48, 53, 46, 42, 104, 100]⟩, _, rfl, rfl,
    (sprintf_reads .onZero ⟨false, .quake⟩ _ valid).1 rfl⟩

end Qcvm.Stdlib

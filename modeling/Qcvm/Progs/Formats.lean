import Qcvm.Progs.Assemble
import Qcvm.Progs.Sound

/-!
# The statement formats are equivalent

A statement whose operands fit 16 bits can be stored in every format. The records differ in the
order and the width of their fields and in the number of bytes a jump offset is sign-extended from,
but the loader makes the same of all of them: it reads the stored values back
(`decodeStatement_encode`), rewrites the same calls (`LogicalStatement.stored_rewrite`) and resolves
the operands alike (`canonicalStatement_stored`). Only whether calls are looked at differs: a QTest
program never uses Hexen 2 calls, a uHexen2 program always does.
-/

namespace Qcvm

open Lib

/-! ## Records -/

/-- The record of a statement in a format. -/
def encodeStatement (format : ProgsFormat) (s : RawStatement) : List Byte :=
  match format with
  | .qTest => leBytes32 (s.line.getD 0) ++ s.encode
  | .v6 | .fte16 => s.encode
  | .fte32 | .kk7 => [s.op, s.a, s.b, s.c].flatMap leBytes32
  | .uHexen2 => [s.op * 65536, s.a, s.b, s.c].flatMap leBytes32

/-- A record of the format can hold the statement. -/
structure RawStatement.Fits (format : ProgsFormat) (s : RawStatement) : Prop where
  op : s.op < 65536
  operands : ∀ slot, s.operand slot < if format.has16bitStatements then 65536 else 4294967296
  line : if format = .qTest then ∃ n < 4294967296, s.line = some n else s.line = none

/-- A statement record has the length its format says. -/
lemma length_encodeStatement (format : ProgsFormat) (s : RawStatement) :
    (encodeStatement format s).length = (layout format).statement := by
  cases format <;> rfl

/-- Two bytes read back as the number they were written from. -/
lemma toNat_leBytes16 {v : Nat} (lt : v < 65536) :
    (BitVec.ofNat 8 (v / 256) ++ BitVec.ofNat 8 v).toNat = v := by
  have low : v % 2 ^ 8 < 2 ^ 8 := Nat.mod_lt _ (by decide)
  rw [BitVec.toNat_append, BitVec.toNat_ofNat, BitVec.toNat_ofNat,
    ← Nat.shiftLeft_add_eq_or_of_lt low, Nat.shiftLeft_eq]
  omega

/-- A number below 2^32 is its own word. -/
lemma toNat_ofNat_word {v : Nat} (lt : v < 4294967296) : (BitVec.ofNat 32 v).toNat = v :=
  Nat.mod_eq_of_lt lt

/-- Decoding a record gives back what was stored. -/
theorem decodeStatement_encode {format : ProgsFormat} {s : RawStatement} (fits : s.Fits format) :
    decodeStatement format (.ofList (encodeStatement format s)) = s := by
  obtain ⟨op, operands, line⟩ := fits
  obtain ⟨o, a, b, c, l⟩ := s
  have ha := operands .a
  have hb := operands .b
  have hc := operands .c
  dsimp only [RawStatement.operand] at op ha hb hc line
  -- A field of the record is the bytes of one value.
  have narrow {v : Nat} (lt : v < 65536) := toNat_leBytes16 lt
  have wide {v : Nat} (lt : v < 4294967296) :
      (leWord fun i => (leBytes (BitVec.ofNat 32 v)).getD i 0).toNat = v := by
    rw [leWord_leBytes, toNat_ofNat_word lt]
  cases format with
  | qTest =>
    obtain ⟨n, lt, rfl⟩ := line
    exact (RawStatement.mk.injEq ..).mpr
      ⟨narrow op, narrow ha, narrow hb, narrow hc, congrArg some (wide lt)⟩
  | v6 | fte16 =>
    subst line
    exact (RawStatement.mk.injEq ..).mpr ⟨narrow op, narrow ha, narrow hb, narrow hc, rfl⟩
  | fte32 | kk7 =>
    subst line
    have lt : o < 4294967296 := Nat.lt_trans op (by decide)
    exact (RawStatement.mk.injEq ..).mpr ⟨wide lt, wide ha, wide hb, wide hc, rfl⟩
  | uHexen2 =>
    subst line
    have upper : ((leWord fun i => (leBytes (BitVec.ofNat 32 (o * 65536))).getD i 0) >>> 16).toNat
        = o := by
      rw [BitVec.toNat_ushiftRight, wide (by omega), Nat.shiftRight_eq_div_pow]
      omega
    exact (RawStatement.mk.injEq ..).mpr ⟨upper, wide ha, wide hb, wide hc, rfl⟩

/-- The records of a section that was written record by record. -/
lemma records_flatMap {α : Type} {f : α → List Byte} {n : Nat} (pos : 0 < n)
    (len : ∀ a, (f a).length = n) (l : List α) :
    records (.ofList (l.flatMap f)) n = l.map fun a => .ofList (f a) := by
  have size : (l.flatMap f).length = n * l.length := length_flatMap_of_length len l
  refine List.ext_getElem ?_ fun k lt lt' => ?_
  · rw [records, List.length_map, List.length_map, List.length_range, Arr.size_ofList, size,
      Nat.mul_div_cancel_left _ pos]
  · have inside : k < l.length := by simpa using lt'
    simp only [records, List.getElem_map, List.getElem_range]
    refine Arr.ext (len _).symm fun i hi => ?_
    rw [recordAt, Arr.size_extract] at hi
    have within : n * k + i < n * l.length :=
      calc n * k + i < n * k + n := Nat.add_lt_add_left hi _
        _ = n * (k + 1) := (Nat.mul_succ n k).symm
        _ ≤ n * l.length := Nat.mul_le_mul_left n inside
    rw [recordAt, Arr.extract, Arr.get_tabulate _ hi, Arr.ofList,
      Arr.get_tabulate _ (by rw [size, Nat.mul_comm k]; exact within), Nat.mul_comm k,
      getD_flatMap len l[k] default inside hi, List.getD_eq_getElem _ _ inside, Arr.ofList,
      Arr.get_tabulate _ (by rw [len]; exact hi)]

/-! ## Statements apart from their format -/

/-- An operand that 16 bits can hold: a jump as a signed offset, any other as it is. -/
def Operand.Fits (kind : Operand) (v : Int) : Prop :=
  match kind with
  | .jump => -32768 ≤ v ∧ v < 32768
  | .global | .globalIndex | .immediate | .unused => 0 ≤ v ∧ v < 65536

instance (kind : Operand) (v : Int) : Decidable (kind.Fits v) :=
  match kind with
  | .jump => inferInstanceAs (Decidable (_ ∧ _))
  | .global | .globalIndex | .immediate | .unused => inferInstanceAs (Decidable (_ ∧ _))

/-- A statement apart from the format that stores it: its opcode with the breakpoint flag, its
operands, the offset for a jump, and the source line that QTest keeps. -/
structure LogicalStatement where
  op : Nat
  operand : Slot → Int
  line : Nat
  op_lt : op < 65536
  fits : ∀ slot, ((Op.fromU32 (opcodeNumber op)).operand slot).Fits (operand slot)
  line_lt : line < 4294967296

/-- The two's complement field of a value. -/
def storedField (format : ProgsFormat) (v : Int) : Nat :=
  if format.has16bitStatements then (BitVec.ofInt 16 v).toNat else (BitVec.ofInt 32 v).toNat

namespace LogicalStatement

variable (s : LogicalStatement)

/-- The statement as a format stores it. -/
def stored (format : ProgsFormat) : RawStatement where
  op := s.op
  a := storedField format (s.operand .a)
  b := storedField format (s.operand .b)
  c := storedField format (s.operand .c)
  line := if format = .qTest then some s.line else none

/-- A `CALL1`..`CALL8` that passes something in operand `b`. -/
def Triggers : Prop := 52 ≤ opcodeNumber s.op ∧ opcodeNumber s.op ≤ 59 ∧ s.operand .b ≠ 0

instance : Decidable s.Triggers := inferInstanceAs (Decidable (_ ∧ _ ∧ _))

end LogicalStatement

/-- The statement section of a program in a format. -/
def statementBytes (format : ProgsFormat) (program : List LogicalStatement) : Arr Byte :=
  .ofList (program.flatMap fun s => encodeStatement format (s.stored format))

/-- Whether a program in a format uses Hexen 2 calls. -/
def wantsHexen2Calls (format : ProgsFormat) (program : List LogicalStatement) : Bool :=
  match format with
  | .qTest => false
  | .uHexen2 => true
  | _ => program.any fun s => decide s.Triggers

/-! ## Stored values -/

section

variable {v : Int}

/-- An operand that fits is between the bounds of both kinds of offset. -/
lemma Operand.Fits.bounds {kind : Operand} (fits : kind.Fits v) : -32768 ≤ v ∧ v < 65536 := by
  cases kind with
  | jump => exact ⟨fits.1, by have := fits.2; omega⟩
  | global | globalIndex | immediate | unused => exact ⟨by have := fits.1; omega, fits.2⟩

/-- All kinds but jumps hold the same values. -/
lemma Operand.fits_of_ne {kind : Operand} (ne : kind ≠ .jump) :
    kind.Fits v ↔ 0 ≤ v ∧ v < 65536 := by
  cases kind with
  | jump => exact absurd rfl ne
  | global | globalIndex | immediate | unused => exact Iff.rfl

/-- The field is the value modulo the width of the field. -/
lemma storedField_eq (format : ProgsFormat) (v : Int) : (storedField format v : Int)
    = v % if format.has16bitStatements then 65536 else 4294967296 := by
  unfold storedField
  split
  · rw [BitVec.toNat_ofInt]
    omega
  · rw [BitVec.toNat_ofInt]
    omega

/-- A stored field fits its width. -/
lemma storedField_lt (format : ProgsFormat) (v : Int) :
    storedField format v < if format.has16bitStatements then 65536 else 4294967296 := by
  unfold storedField
  cases format.has16bitStatements with
  | true => exact (BitVec.ofInt 16 v).isLt
  | false => exact (BitVec.ofInt 32 v).isLt

/-- Only zero is stored as zero. -/
lemma storedField_eq_zero {format : ProgsFormat} (bounds : -32768 ≤ v ∧ v < 65536) :
    storedField format v = 0 ↔ v = 0 := by
  have value := storedField_eq format v
  split at value
  next => omega
  next => omega

/-- What is not a jump is stored as it is. -/
lemma storedField_of_nonneg {format : ProgsFormat} (bounds : 0 ≤ v ∧ v < 65536) :
    storedField format v = v.toNat := by
  have value := storedField_eq format v
  split at value
  next => omega
  next => omega

/-- A stored number reads back as itself modulo its width. -/
lemma toInt_readBack (w : Nat) (v : Int) :
    (BitVec.ofNat w (BitVec.ofInt w v).toNat).toInt = v.bmod (2 ^ w) := by
  rw [BitVec.ofNat_toNat, BitVec.setWidth_eq, BitVec.toInt_ofInt]

/-- A jump offset is read back from either width. -/
lemma jumpOffset_storedField {format : ProgsFormat} (bounds : -32768 ≤ v ∧ v < 32768) :
    jumpOffset (!format.has16bitStatements) (storedField format v) = v := by
  unfold jumpOffset storedField
  cases format.has16bitStatements with
  | true => exact (toInt_readBack 16 v).trans (Int.bmod_eq_of_le (by omega) (by omega))
  | false => exact (toInt_readBack 32 v).trans (Int.bmod_eq_of_le (by omega) (by omega))

/-- An operand is resolved alike from every format. -/
lemma decodeOperand_storedField (format other : ProgsFormat) {kind : Operand} (fits : kind.Fits v)
    (limit count index : Nat) :
    decodeOperand (!format.has16bitStatements) limit count index kind (storedField format v)
      = decodeOperand (!other.has16bitStatements) limit count index kind (storedField other v) := by
  cases kind with
  | global | globalIndex | immediate | unused =>
    rw [storedField_of_nonneg fits, storedField_of_nonneg fits]
    rfl
  | jump =>
    simp only [decodeOperand]
    rw [jumpOffset_storedField fits, jumpOffset_storedField fits]

end

/-! ## Opcodes -/

section

variable {op : Nat}

/-- The distance of the two numberings of calls. -/
lemma hexen2CallDelta_eq : hexen2CallDelta = 53 := by decide +kernel

/-- The breakpoint bit is bit 15. -/
lemma breakpointBit_eq : BitVec.ofNat 32 breakpointBit = BitVec.twoPow 32 15 := rfl

/-- The flag of a 16-bit opcode is its upper bit, in whatever field it is stored. -/
lemma hasBreakpoint_eq (lt : op < 65536) : hasBreakpoint op = decide (32768 ≤ op) := by
  have bit : (BitVec.ofNat 32 op).getLsbD 15 = decide (32768 ≤ op) := by
    rw [BitVec.getLsbD_ofNat, Nat.testBit_eq_decide_div_mod_eq, decide_eq_true (by decide),
      Bool.true_and, decide_eq_decide]
    omega
  rw [hasBreakpoint, breakpointBit_eq, BitVec.and_twoPow, bit]
  by_cases upper : 32768 ≤ op
  · rw [decide_eq_true upper, if_pos rfl]
    rfl
  · rw [decide_eq_false upper, if_neg Bool.false_ne_true]
    rfl

/-- The number of an opcode is its low fifteen bits. -/
lemma opcodeNumber_eq (lt : op < 65536) : opcodeNumber op = op % 2 ^ 15 := by
  refine Nat.eq_of_testBit_eq fun i => ?_
  have high : 16 ≤ i → op.testBit i = false := fun le =>
    Nat.testBit_lt_two_pow (Nat.lt_of_lt_of_le lt (Nat.pow_le_pow_right (n := 2) (by decide) le))
  rw [opcodeNumber, breakpointBit_eq, BitVec.testBit_toNat, BitVec.getLsbD_and, BitVec.getLsbD_not,
    BitVec.getLsbD_twoPow, BitVec.getLsbD_ofNat, Nat.testBit_mod_two_pow]
  rcases Nat.lt_trichotomy i 15 with below | rfl | above
  · have ne : 15 ≠ i := Nat.ne_of_gt below
    have inside : i < 32 := by omega
    simp [below, ne, inside]
  · simp
  · rw [high (by omega)]
    simp

/-- A 16-bit opcode is its flag and its number. -/
lemma breakpoint_add_number (lt : op < 65536) :
    (if hasBreakpoint op then breakpointBit else 0) + opcodeNumber op = op := by
  rw [hasBreakpoint_eq lt, opcodeNumber_eq lt, breakpointBit]
  split
  next upper =>
    have := of_decide_eq_true upper
    omega
  next lower =>
    have := of_decide_eq_false (Bool.eq_false_iff.mpr lower)
    omega

/-- The number of `CALLnH`, with the flag of `CALLn`. -/
lemma opcodeNumber_call (lt : op < 65536) (call : opcodeNumber op ≤ 59) :
    op + hexen2CallDelta < 65536 ∧
      opcodeNumber (op + hexen2CallDelta) = opcodeNumber op + hexen2CallDelta := by
  rw [opcodeNumber_eq lt] at call ⊢
  rw [hexen2CallDelta_eq]
  have inside : op + 53 < 65536 := by omega
  rw [opcodeNumber_eq inside]
  omega

/-- No operand of a call is a jump. -/
lemma operand_of_call {number : Nat} (first : 52 ≤ number) (last : number ≤ 59) (slot : Slot) :
    (Op.fromU32 number).operand slot ≠ .jump ∧
      (Op.fromU32 (number + hexen2CallDelta)).operand slot ≠ .jump := by
  have table : ∀ n < 60, 52 ≤ n → ∀ slot ∈ [Slot.a, .b, .c],
      (Op.fromU32 n).operand slot ≠ .jump ∧
        (Op.fromU32 (n + hexen2CallDelta)).operand slot ≠ .jump := by
    decide +kernel
  exact table number (by omega) first slot (by cases slot <;> decide)

/-- The random opcodes have C as a global. -/
lemma operand_of_rand {number : Nat} (first : 92 ≤ number) (last : number ≤ 97) :
    (Op.fromU32 number).operand .c = .global := by
  have table : ∀ n < 98, 92 ≤ n → (Op.fromU32 n).operand .c = .global := by decide +kernel
  exact table number (by omega) first

end

/-! ## The loader -/

namespace LogicalStatement

variable (s : LogicalStatement)

/-- The operands of a stored statement are its stored fields. -/
lemma operand_stored (format : ProgsFormat) (slot : Slot) :
    (s.stored format).operand slot = storedField format (s.operand slot) := by
  cases slot <;> rfl

/-- A record of any format can hold the statement. -/
lemma fits_stored (format : ProgsFormat) : (s.stored format).Fits format where
  op := s.op_lt
  operands slot := by
    rw [s.operand_stored]
    exact storedField_lt format _
  line := by
    unfold stored
    split
    next => exact ⟨s.line, s.line_lt, rfl⟩
    next => rfl

/-- `CALLn` becomes `CALLnH`, and `RAND*` results default to the return slot. -/
def rewriteHexen2 : LogicalStatement where
  op := if 52 ≤ opcodeNumber s.op ∧ opcodeNumber s.op ≤ 59 then s.op + hexen2CallDelta else s.op
  operand slot :=
    if 92 ≤ opcodeNumber s.op ∧ opcodeNumber s.op ≤ 97 ∧ slot = .c ∧ s.operand slot = 0 then 1
    else s.operand slot
  line := s.line
  op_lt := by
    split
    next call => exact (opcodeNumber_call s.op_lt call.2).1
    next => exact s.op_lt
  fits slot := by
    have fits := s.fits slot
    split
    next call =>
      obtain ⟨plain, rewritten⟩ := operand_of_call call.1 call.2 slot
      rw [(opcodeNumber_call s.op_lt call.2).2, if_neg (by omega)]
      exact (Operand.fits_of_ne rewritten).mpr ((Operand.fits_of_ne plain).mp fits)
    next =>
      split
      next rand =>
        obtain ⟨first, last, rfl, -⟩ := rand
        rw [operand_of_rand first last]
        exact ⟨by decide, by decide⟩
      next => exact fits
  line_lt := s.line_lt

/-- The rewriting of Hexen 2 calls touches C alone. -/
lemma operand_rewriteHexen2 {slot : Slot} (ne : slot ≠ .c) :
    s.rewriteHexen2.operand slot = s.operand slot :=
  if_neg fun rand => ne rand.2.2.1

/-- What is rewritten are the opcode and the third operand, each by its own test. -/
lemma rewriteHexen2Call_eq (r : RawStatement) : rewriteHexen2Call r =
    { op := if 52 ≤ opcodeNumber r.op ∧ opcodeNumber r.op ≤ 59 then
        (if hasBreakpoint r.op then breakpointBit else 0) + (opcodeNumber r.op + hexen2CallDelta)
        else r.op
      a := r.a
      b := r.b
      c := if 92 ≤ opcodeNumber r.op ∧ opcodeNumber r.op ≤ 97 ∧ r.c = 0 then 1 else r.c
      line := r.line } := by
  unfold rewriteHexen2Call
  generalize hexen2CallDelta = delta
  dsimp only
  generalize (if hasBreakpoint r.op then breakpointBit else 0) + (opcodeNumber r.op + delta) = op
  by_cases call : 52 ≤ opcodeNumber r.op ∧ opcodeNumber r.op ≤ 59
  · rw [if_pos call, if_pos call]
    split
    next => rfl
    next => rfl
  · rw [if_neg call, if_neg call]
    split
    next => rfl
    next => rfl

/-- A stored statement is rewritten as the statement is. -/
lemma stored_rewrite (format : ProgsFormat) :
    rewriteHexen2Call (s.stored format) = s.rewriteHexen2.stored format := by
  have zero : storedField format (s.operand .c) = 0 ↔ s.operand .c = 0 :=
    storedField_eq_zero (s.fits .c).bounds
  have one : storedField format 1 = 1 := storedField_of_nonneg ⟨by decide, by decide⟩
  have number : (if hasBreakpoint s.op then breakpointBit else 0) +
      (opcodeNumber s.op + hexen2CallDelta) = s.op + hexen2CallDelta := by
    rw [← Nat.add_assoc, breakpoint_add_number s.op_lt]
  rw [rewriteHexen2Call_eq]
  refine (RawStatement.mk.injEq ..).mpr ⟨?_, ?_, ?_, ?_, rfl⟩
  · exact congrArg
      (fun n => if 52 ≤ opcodeNumber s.op ∧ opcodeNumber s.op ≤ 59 then n else s.op) number
  · rw [operand_rewriteHexen2 s (by decide)]
    rfl
  · rw [operand_rewriteHexen2 s (by decide)]
    rfl
  · simp only [stored, rewriteHexen2, zero, true_and]
    split
    next => exact one.symm
    next => rfl

end LogicalStatement

/-- A section is read back as the statements it was written from. -/
theorem decode_statementBytes (format : ProgsFormat) (program : List LogicalStatement) :
    (records (statementBytes format program) (layout format).statement).map (decodeStatement format)
      = program.map (·.stored format) := by
  have each (s : LogicalStatement) :
      (encodeStatement format (s.stored format)).length = (layout format).statement :=
    length_encodeStatement format _
  rw [statementBytes, records_flatMap (statement_pos format) each, List.map_map]
  exact List.map_congr_left fun s _ => decodeStatement_encode (s.fits_stored format)

/-- Calls are found in the stored statements where they are in the program. -/
lemma usesHexen2Calls_stored (format : ProgsFormat) (program : List LogicalStatement) :
    usesHexen2Calls format (program.map (·.stored format)) = wantsHexen2Calls format program := by
  have each (s : LogicalStatement) : (decide (52 ≤ opcodeNumber (s.stored format).op ∧
      opcodeNumber (s.stored format).op ≤ 59) && (s.stored format).b != 0) = decide s.Triggers := by
    have zero : storedField format (s.operand .b) = 0 ↔ s.operand .b = 0 :=
      storedField_eq_zero (s.fits .b).bounds
    rw [Bool.eq_iff_iff, Bool.and_eq_true, decide_eq_true_iff, decide_eq_true_iff, bne_iff_ne,
      and_assoc]
    exact and_congr_right' (and_congr_right' (not_congr zero))
  cases format with
  | qTest | uHexen2 => rfl
  | v6 | fte16 | fte32 | kk7 =>
    simp only [usesHexen2Calls, wantsHexen2Calls, List.any_map]
    exact congrArg _ (funext each)

/-- The statements of a program as the loader goes on with them. -/
def rewrittenProgram (format : ProgsFormat) (program : List LogicalStatement) :
    List LogicalStatement :=
  if wantsHexen2Calls format program then program.map (·.rewriteHexen2) else program

/-- What the loader reads is the stored form of the rewritten program. -/
theorem rawStatements_stored (format : ProgsFormat) (program : List LogicalStatement) :
    rawStatements format (statementBytes format program)
      = (rewrittenProgram format program).map (·.stored format) := by
  unfold rawStatements rewrittenProgram
  rw [decode_statementBytes]
  dsimp only
  rw [usesHexen2Calls_stored]
  split
  next =>
    rw [List.map_map, List.map_map]
    exact List.map_congr_left fun s _ => s.stored_rewrite format
  next => rfl

/-- The loader makes the same of a statement from every format. -/
lemma canonicalStatement_stored (format other : ProgsFormat) (limit count index : Nat)
    (s : LogicalStatement) : canonicalStatement format limit count index (s.stored format)
      = canonicalStatement other limit count index (s.stored other) := by
  have decode (slot : Slot) :=
    decodeOperand_storedField format other (s.fits slot) limit count index
  unfold canonicalStatement LogicalStatement.stored
  dsimp only
  rw [decode .a, decode .b, decode .c]

section

variable (format other : ProgsFormat) (program : List LogicalStatement) (limit : Nat)

/-- What is kept of the canonical statements does not depend on the format. -/
lemma mapIdx_stored {β : Type} (part : Stmt × List LoadNote → β) (count : Nat) :
    (program.map (·.stored format)).mapIdx
        (fun index s => part (canonicalStatement format limit count index s))
      = (program.map (·.stored other)).mapIdx
        (fun index s => part (canonicalStatement other limit count index s)) := by
  refine List.ext_getElem (by simp) fun i _ _ => ?_
  rw [List.getElem_mapIdx, List.getElem_mapIdx, List.getElem_map, List.getElem_map,
    canonicalStatement_stored format other]

/-- The canonical statements do not depend on the format. -/
lemma canonicalStatements_stored : canonicalStatements format limit (program.map (·.stored format))
    = canonicalStatements other limit (program.map (·.stored other)) := by
  unfold canonicalStatements
  rw [List.length_map, List.length_map]
  exact congrArg (· ++ _) (mapIdx_stored format other program limit Prod.fst _)

/-- The notes on statements do not depend on the format. -/
lemma statementNotes_stored : statementNotes format limit (program.map (·.stored format))
    = statementNotes other limit (program.map (·.stored other)) := by
  unfold statementNotes
  rw [List.length_map, List.length_map]
  exact congrArg List.flatten (mapIdx_stored format other program limit Prod.snd _)

/-- Formats that look for Hexen 2 calls alike make the same of a program. -/
theorem formats_agree_of_calls
    (calls : wantsHexen2Calls format program = wantsHexen2Calls other program) :
    rewrittenProgram format program = rewrittenProgram other program ∧
      canonicalStatements format limit (rawStatements format (statementBytes format program))
        = canonicalStatements other limit (rawStatements other (statementBytes other program)) ∧
      statementNotes format limit (rawStatements format (statementBytes format program))
        = statementNotes other limit (rawStatements other (statementBytes other program)) := by
  have same : rewrittenProgram format program = rewrittenProgram other program := by
    unfold rewrittenProgram
    rw [calls]
  rw [rawStatements_stored, rawStatements_stored, same]
  exact ⟨rfl, canonicalStatements_stored format other _ limit,
    statementNotes_stored format other _ limit⟩

end

/-- The formats with no rule of their own for Hexen 2 calls. -/
def commonFormats : List ProgsFormat := [.v6, .fte16, .fte32, .kk7]

/-- Whether calls are Hexen 2's does not depend on the common format. -/
lemma wantsHexen2Calls_common {format : ProgsFormat} (common : format ∈ commonFormats)
    (program : List LogicalStatement) :
    wantsHexen2Calls format program = program.any fun s => decide s.Triggers := by
  cases format with
  | v6 | fte16 | fte32 | kk7 => rfl
  | qTest | uHexen2 => exact absurd common (by decide)

/-- Version 6, FTE16, FTE32 and KK7 records of the same statements lead to the same program, and so
do QTest records where no statement triggers Hexen 2 calls. -/
theorem formats_agree (program : List LogicalStatement) (limit : Nat) {format other : ProgsFormat}
    (common : format ∈ commonFormats)
    (kind : other ∈ commonFormats ∨ other = .qTest ∧ ∀ s ∈ program, ¬s.Triggers) :
    usesHexen2Calls format ((records (statementBytes format program)
        (layout format).statement).map (decodeStatement format))
      = usesHexen2Calls other ((records (statementBytes other program)
        (layout other).statement).map (decodeStatement other)) ∧
    (∃ rewritten : List LogicalStatement,
      rawStatements format (statementBytes format program) = rewritten.map (·.stored format) ∧
      rawStatements other (statementBytes other program) = rewritten.map (·.stored other)) ∧
    canonicalStatements format limit (rawStatements format (statementBytes format program))
      = canonicalStatements other limit (rawStatements other (statementBytes other program)) ∧
    statementNotes format limit (rawStatements format (statementBytes format program))
      = statementNotes other limit (rawStatements other (statementBytes other program)) := by
  have calls : wantsHexen2Calls format program = wantsHexen2Calls other program := by
    rw [wantsHexen2Calls_common common]
    rcases kind with common' | ⟨rfl, none⟩
    · rw [wantsHexen2Calls_common common']
    · exact List.any_eq_false.mpr fun s mem => by simpa using none s mem
  obtain ⟨same, statements, notes⟩ := formats_agree_of_calls format other program limit calls
  refine ⟨?_, ⟨rewrittenProgram format program, rawStatements_stored format program, ?_⟩,
    statements, notes⟩
  · rw [decode_statementBytes, decode_statementBytes, usesHexen2Calls_stored,
      usesHexen2Calls_stored, calls]
  · rw [same]
    exact rawStatements_stored other program

/-- `CALL1` with a value in operand `b`. -/
def callWithParm : LogicalStatement where
  op := 52
  operand := fun slot => if slot = .a then 3 else if slot = .b then 5 else 0
  line := 1
  op_lt := by decide
  fits := fun slot => by cases slot <;> decide +kernel
  line_lt := by decide

/-- A jump to the statement before, with a breakpoint. -/
def jumpBack : LogicalStatement where
  op := 0x8000 + 61
  operand := fun slot => if slot = .a then -1 else 0
  line := 2
  op_lt := by decide
  fits := fun slot => by cases slot <;> decide +kernel
  line_lt := by decide

/-- A call and a jump back in the narrow and the wide records, and the jump alone for QTest. -/
theorem formats_agree_jumpBack :
    canonicalStatements .v6 8 (rawStatements .v6 (statementBytes .v6 [callWithParm, jumpBack]))
      = canonicalStatements .kk7 8
        (rawStatements .kk7 (statementBytes .kk7 [callWithParm, jumpBack])) ∧
    canonicalStatements .fte32 8 (rawStatements .fte32 (statementBytes .fte32 [jumpBack]))
      = canonicalStatements .qTest 8 (rawStatements .qTest (statementBytes .qTest [jumpBack])) :=
  ⟨(formats_agree [callWithParm, jumpBack] 8 (by decide) (.inl (by decide))).2.2.1,
    (formats_agree [jumpBack] 8 (by decide) (.inr ⟨rfl, by decide +kernel⟩)).2.2.1⟩

example : canonicalStatements .v6 8
    (rawStatements .v6 (statementBytes .v6 [callWithParm, jumpBack]))
      = [⟨.call1H, false, 12, 20, 0⟩, ⟨.goto, true, 0, 0, 0⟩, .sentinel] := by
  decide +kernel

end Qcvm

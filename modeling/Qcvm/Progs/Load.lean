import Qcvm.Progs.Format

/-!
# The loader

`progs/load.rs`: raw records become the canonical program. Global operands become byte offsets,
jump targets absolute statement indices; a statement with an unknown opcode or an operand outside
the globals is poisoned, and a sentinel statement follows the last one. Hash maps from names are
association lists; the first entry of a name counts.
-/

namespace Qcvm

open Lib

/-- The type of a global or field definition (FTE's `EV_*` codes). -/
inductive EvType where
  | void
  | string
  | float
  | vector
  | entity
  | field
  | function
  | pointer
  | integer
  | uInt
  | int64
  | uInt64
  | double
  | other (code : Nat)
  deriving DecidableEq, Repr

/-- `Type::from_code`. -/
def EvType.fromCode : Nat → EvType
  | 0 => .void
  | 1 => .string
  | 2 => .float
  | 3 => .vector
  | 4 => .entity
  | 5 => .field
  | 6 => .function
  | 7 => .pointer
  | 8 => .integer
  | 9 => .uInt
  | 10 => .int64
  | 11 => .uInt64
  | 12 => .double
  | code => .other code

/-- `Type::words`. -/
def EvType.words : EvType → Option Nat
  | .void => some 0
  | .vector => some 3
  | .int64 | .uInt64 | .double => some 2
  | .other _ => none
  | _ => some 1

/-- A global or field definition. -/
structure Def where
  ty : EvType
  ofs : Nat
  name : Nat
  save : Bool
  shared : Bool
  deriving DecidableEq, Repr

/-- What a function record describes. -/
inductive FunctionKind where
  | null
  | quakeC (entry : Nat)
  | builtin (number : Nat)
  | namedBuiltin
  | invalid (reason : InvalidFunction)
  deriving DecidableEq, Repr

/-- One parameter word to copy from a PARM slot into a function's locals, as byte offsets. -/
structure ParamCopy where
  src : Nat
  dst : Nat
  deriving DecidableEq, Repr

/-- A function record in canonical form. -/
structure Function where
  kind : FunctionKind
  parmStart : Nat
  locals : Nat
  numParms : Int
  parmSizes : List Nat
  copiesStart : Nat
  copiesEnd : Nat
  name : Nat
  file : Nat
  deriving DecidableEq, Repr

/-- A statement in canonical form; `flags` is `STMT_BREAKPOINT`. -/
structure Stmt where
  op : Op
  flags : Bool
  a : Nat
  b : Nat
  c : Nat
  deriving DecidableEq, Repr

/-- The out-of-range sentinel. -/
def Stmt.sentinel : Stmt := ⟨.jumpOutOfRange, false, 0, 0, 0⟩

/-- The statement that replaces an invalid one, which keeps its breakpoint. -/
def Stmt.poison (flags : Bool) : Stmt := ⟨.bad, flags, 0, 0, 0⟩

instance : Inhabited Stmt := ⟨.sentinel⟩

/-- One operand of a statement. -/
def Stmt.operand (st : Stmt) : Slot → Nat
  | .a => st.a
  | .b => st.b
  | .c => st.c

/-- Global definitions with these names are patched when a VM loads the program. -/
structure SpecialGlobals where
  thisprogs : Option Nat
  fasttrackarrays : Option Nat

/-- Names mapped to indices; the first entry of a name counts. -/
abbrev NameMap := List (List Byte × Nat)

/-- A loaded, validated program. -/
structure Program where
  format : ProgsFormat
  version : Nat
  crc : Nat
  strings : Arr Byte
  globals : Arr Word
  statements : Arr Stmt
  fileStatements : Nat
  functions : List Function
  paramCopies : List ParamCopy
  globalDefs : List Def
  fieldDefs : List Def
  entityFields : Nat
  functionsByName : NameMap
  globalsByName : NameMap
  fieldsByName : NameMap
  bodyless : List (List Byte)
  pointerRelocs : List Nat
  special : SpecialGlobals
  lineNumbers : Option (List Nat)
  notes : List LoadNote

/-- The breakpoint flag in a stored opcode. -/
def breakpointBit : Nat := 0x8000

/-- The opcode number of a stored opcode. -/
def opcodeNumber (op : Nat) : Nat := (BitVec.ofNat 32 op &&& ~~~(BitVec.ofNat 32 breakpointBit)).toNat

/-- Whether a stored opcode has the breakpoint flag. -/
def hasBreakpoint (op : Nat) : Bool := BitVec.ofNat 32 op &&& BitVec.ofNat 32 breakpointBit != 0

/-- `CALLn` + this = `CALLnH`. -/
def hexen2CallDelta : Nat := Op.all.idxOf .call1H - Op.all.idxOf .call1

/-- Globals are followed by three zero words; operands may name those. -/
def globalsTail : Nat := 3

/-- `uses_hexen2_calls`. -/
def usesHexen2Calls (format : ProgsFormat) (raw : List RawStatement) : Bool :=
  match format with
  | .qTest => false
  | .uHexen2 => true
  | _ => raw.any fun s => decide (52 ≤ opcodeNumber s.op ∧ opcodeNumber s.op ≤ 59) && s.b != 0

/-- `rewrite_hexen2_calls` of one statement: `CALLn` becomes `CALLnH`, and `RAND*` results default
to the return slot. -/
def rewriteHexen2Call (s : RawStatement) : RawStatement :=
  let bp := if hasBreakpoint s.op then breakpointBit else 0
  let op := opcodeNumber s.op
  let s := if 52 ≤ op ∧ op ≤ 59 then { s with op := bp + (op + hexen2CallDelta) } else s
  if 92 ≤ op ∧ op ≤ 97 ∧ s.c = 0 then { s with c := 1 } else s

/-- A decoded operand. -/
inductive Decoded where
  | value (v : Nat)
  /-- A jump that leaves the statement table; its value is the sentinel. -/
  | jumpOut
  /-- The statement is poisoned. -/
  | bad
  deriving DecidableEq, Repr

/-- The offset of a jump operand. -/
def jumpOffset (wide : Bool) (value : Nat) : Int :=
  if wide then (BitVec.ofNat 32 value).toInt else (BitVec.ofNat 16 value).toInt

/-- One operand of statement `index` of `count`. -/
def decodeOperand (wide : Bool) (limit count index : Nat) (kind : Operand) (value : Nat) :
    Decoded :=
  match kind with
  | .global | .unused =>
    match checkedMul value 4 with
    | some byte => if value < limit then .value byte else .bad
    | none => .bad
  | .globalIndex => if value < limit then .value value else .bad
  | .jump =>
    let target := (index : Int) + jumpOffset wide value
    if 0 ≤ target ∧ target < count then .value target.toNat else .jumpOut
  | .immediate => .value value

/-- The operand a statement is left with; a jump out of range goes to the sentinel at `count`. -/
def Decoded.get (count : Nat) : Decoded → Nat
  | .value v => v
  | .jumpOut => count
  | .bad => 0

/-- One pass of the loop of `canonical_statements`. -/
def canonicalStatement (format : ProgsFormat) (limit count index : Nat) (s : RawStatement) :
    Stmt × List LoadNote :=
  let number := opcodeNumber s.op
  let op := Op.fromU32 number
  let decode := decodeOperand (!format.has16bitStatements) limit count index
  let a := decode (op.operand .a) s.a
  let b := decode (op.operand .b) s.b
  let c := decode (op.operand .c) s.c
  if op ≠ .bad ∧ a ≠ .bad ∧ b ≠ .bad ∧ c ≠ .bad then
    (⟨op, hasBreakpoint s.op, a.get count, b.get count, c.get count⟩,
      if a = .jumpOut ∨ b = .jumpOut ∨ c = .jumpOut then [.jumpOutOfRange index] else [])
  else (.poison (hasBreakpoint s.op), [.poisonedStatement index number])

/-- `canonical_statements`: the statements and the sentinel. -/
def canonicalStatements (format : ProgsFormat) (limit : Nat) (raw : List RawStatement) :
    List Stmt :=
  raw.mapIdx (fun index s => (canonicalStatement format limit raw.length index s).1) ++ [.sentinel]

/-- What `canonical_statements` notes. -/
def statementNotes (format : ProgsFormat) (limit : Nat) (raw : List RawStatement) :
    List LoadNote :=
  (raw.mapIdx fun index s => (canonicalStatement format limit raw.length index s).2).flatten

/-- QTest stores a source line with every statement. -/
def qtestLines (format : ProgsFormat) (raw : List RawStatement) : Option (List Nat) :=
  if format = .qTest then some (raw.filterMap (·.line)) else none

/-- `decode_defs`. -/
def decodeDefs (bytes : Arr Byte) (format : ProgsFormat) (size : Nat) : List Def :=
  (records bytes size).map fun r =>
    let d := decodeDef format r
    let ty := BitVec.ofNat 32 d.ty
    { ty := .fromCode (ty &&& ~~~0xC000#32).toNat
      ofs := d.ofs
      name := d.name
      save := ty &&& 0x8000#32 != 0
      shared := ty &&& 0x4000#32 != 0 }

/-- The copies of one parameter of `size` words; the destination then continues after it. -/
def planWords (limit slotBase : Nat) : Nat → Nat → Nat → Option (List ParamCopy)
  | _, _, 0 => some []
  | word, dst, left + 1 =>
    let src := slotBase + word
    if src ≥ limit ∨ dst ≥ limit then none
    else if src > u32Max ∨ dst > u32Max then none
    else
      match checkedMul src 4, checkedMul dst 4 with
      | some src, some dstByte =>
        (planWords limit slotBase (word + 1) (dst + 1) left).map (⟨src, dstByte⟩ :: ·)
      | _, _ => none

/-- The copies of the parameters from `slot` on. -/
def planParams (limit : Nat) : Nat → Nat → List Nat → Option (List ParamCopy)
  | _, _, [] => some []
  | slot, dst, size :: sizes => do
    let copies ← planWords limit (4 + 3 * slot) 0 dst size
    let rest ← planParams limit (slot + 1) (dst + size) sizes
    return copies ++ rest

/-- `plan_param_copies`: the copies, or `none` if a word lies outside the globals. -/
def planParamCopies (raw : RawFunction) (limit : Nat) : Option (List ParamCopy) :=
  if raw.parmStart + raw.locals > limit then none
  else
    let numParms := (max 0 (min raw.numParms 8)).toNat
    planParams limit 0 raw.parmStart (raw.parmSizes.take numParms)

/-- `canonical_function`: validates a function record and plans its parameter copies, which follow
`copies`. -/
def canonicalFunction (index : Nat) (raw : RawFunction) (numStatements limit : Nat)
    (copies : List ParamCopy) : Function × List ParamCopy :=
  let copiesStart := min copies.length u32Max
  let (kind, all) : FunctionKind × List ParamCopy :=
    if index = 0 then (.null, copies)
    else if raw.firstStatement > 0 then
      let entry := raw.firstStatement.natAbs
      if entry ≥ numStatements then (.invalid .entryOutOfRange, copies)
      else
        match planParamCopies raw limit with
        | some planned => (.quakeC entry, copies ++ planned)
        | none => (.invalid .localsOutOfRange, copies.take copiesStart)
    else if raw.firstStatement = 0 then (.namedBuiltin, copies)
    else (.builtin raw.firstStatement.natAbs, copies)
  ({ kind := kind
     parmStart := raw.parmStart
     locals := raw.locals
     numParms := raw.numParms
     parmSizes := raw.parmSizes
     copiesStart := copiesStart
     copiesEnd := min all.length u32Max
     name := raw.name
     file := raw.file }, all)

/-- The function table, and the copies of all functions. -/
def canonicalFunctions (numStatements limit : Nat) :
    Nat → List ParamCopy → List RawFunction → List Function × List ParamCopy
  | _, copies, [] => ([], copies)
  | index, copies, raw :: rest =>
    let (f, copies) := canonicalFunction index raw numStatements limit copies
    let (fs, copies) := canonicalFunctions numStatements limit (index + 1) copies rest
    (f :: fs, copies)

/-- What the function table makes the loader note. -/
def functionNotes (functions : List Function) : List LoadNote :=
  (functions.mapIdx fun index f =>
    match f.kind with
    | .invalid reason => [LoadNote.invalidFunction index reason]
    | _ => []).flatten

/-- Most bytes the names of a program's functions and definitions may add up to. -/
def nameBytesMax : Nat := 16777216

/-- The position of the first NUL in the `n` bytes from `off` on. -/
def nulPosition (data : Arr Byte) (off : Nat) : Nat → Option Nat
  | 0 => none
  | n + 1 => if data.get off == 0 then some 0 else (nulPosition data (off + 1) n).map (· + 1)

/-- `check_name_bytes`, with `left` bytes still allowed; a name is scanned no further than that. -/
def checkNameBytes (strings : Arr Byte) : Nat → List Nat → Except LoadError Unit
  | _, [] => .ok ()
  | left, ofs :: names =>
    let rest := strings.size - ofs
    let window := min rest (left + 1)
    let len := match nulPosition strings ofs window with
      | some n => some n
      | none => if window = rest then some rest else none
    match len with
    | none => .error .namesTooLarge
    | some len =>
      if len ≤ left then checkNameBytes strings (left - len) names else .error .namesTooLarge

/-- `name_map`: non-empty names and their indices. -/
def nameMap (entries : List (Nat × Nat)) (strings : Arr Byte) : NameMap :=
  entries.filterMap fun (index, name) =>
    let name := cstrAt strings name
    if name = [] then none else some (name, index)

/-- The names and indices of a table, from index `first` on. -/
def nameEntries (first : Nat) (names : List Nat) : List (Nat × Nat) :=
  (names.mapIdx fun i name => (i, name)).drop first

/-- `read_bodyless`: the `count` NUL-terminated names from `ofs` on, and whether one is missing. -/
def readBodyless (data : Arr Byte) : Nat → Nat → List (List Byte) × List LoadNote
  | _, 0 => ([], [])
  | ofs, count + 1 =>
    let name := cstrAt data ofs
    let after := ofs + name.length
    if after < data.size then
      let (names, notes) := readBodyless data (after + 1) count
      (name :: names, notes)
    else ([], [.bodylessIgnored])

/-- The word with the high bit set marks a pointer relocation. -/
def isPointerReloc (globals : Arr Word) (d : Def) : Bool :=
  d.ty = .pointer && ((globals.get? d.ofs).elim false fun v => v &&& 0x80000000 != 0)

/-- The bytes of a name. -/
def ascii (s : String) : List Byte := s.toList.map fun c => BitVec.ofNat 8 c.toNat

/-- The line numbers and bodyless functions an extended header names. -/
def readExtension (data : Arr Byte) (ext : Option ExtHeader) (numStatements : Nat)
    (qtest : Option (List Nat)) : Option (List Nat) × List (List Byte) × List LoadNote :=
  match ext with
  | none => (qtest, [], [])
  | some ext =>
    let (lines, n1) : Option (List Nat) × List LoadNote :=
      if ext.ofsLinenums ≠ 0 then
        match fileSection data ext.ofsLinenums numStatements 4 "line number" with
        | .ok bytes => (some ((records bytes 4).map fun r => (w32 r 0).toNat), [])
        | .error _ => (qtest, [.lineNumbersIgnored])
      else (qtest, [])
    let (bodyless, n2) :=
      if ext.numBodylessfuncs ≠ 0 then
        readBodyless data ext.ofsBodylessfuncs ext.numBodylessfuncs
      else ([], [])
    let n3 : List LoadNote := if ext.numTypes ≠ 0 then [.typesIgnored] else []
    (lines, bodyless, n1 ++ n2 ++ n3)

/-- `Program::parse`. -/
def parse (data : Arr Byte) : Except LoadError Program := do
  let (h, ext, format, headerNotes) ← readHeader data
  let lay := layout format
  let stmtBytes ← fileSection data h.ofsStatements h.numStatements lay.statement "statement"
  let gdefBytes ← fileSection data h.ofsGlobaldefs h.numGlobaldefs lay.define "global definition"
  let fdefBytes ← fileSection data h.ofsFielddefs h.numFielddefs lay.define "field definition"
  let funcBytes ← fileSection data h.ofsFunctions h.numFunctions lay.function "function"
  let strings ← fileSection data h.ofsStrings h.lenStrings 1 "string"
  let globBytes ← fileSection data h.ofsGlobals h.numGlobals 4 "globals"
  let globals := Arr.tabulate h.numGlobals fun i => wordAt globBytes (4 * i)
  let limit := h.numGlobals + globalsTail
  let raw := (records stmtBytes lay.statement).map (decodeStatement format)
  let hexen2 := usesHexen2Calls format raw
  let raw := if hexen2 then raw.map rewriteHexen2Call else raw
  let globalDefs := decodeDefs gdefBytes format lay.define
  let fieldDefs := decodeDefs fdefBytes format lay.define
  let (functions, copies) := canonicalFunctions h.numStatements limit 0 []
    ((records funcBytes lay.function).map (decodeFunction format))
  checkNameBytes strings nameBytesMax
    (functions.map (·.name) ++ globalDefs.map (·.name) ++ fieldDefs.map (·.name))
  let globalsByName := nameMap (nameEntries 0 (globalDefs.map (·.name))) strings
  let (lines, bodyless, extNotes) :=
    readExtension data ext h.numStatements (qtestLines format raw)
  let defOfs := fun name => do (globalDefs[← globalsByName.lookup (ascii name)]?).map Def.ofs
  return {
    format := format
    version := h.version
    crc := h.crc
    strings := strings
    globals := globals
    statements := .ofList (canonicalStatements format limit raw)
    fileStatements := h.numStatements
    functions := functions
    paramCopies := copies
    globalDefs := globalDefs
    fieldDefs := fieldDefs
    entityFields := h.entityFields
    functionsByName := nameMap (nameEntries 1 (functions.map (·.name))) strings
    globalsByName := globalsByName
    fieldsByName := nameMap (nameEntries 0 (fieldDefs.map (·.name))) strings
    bodyless := bodyless
    pointerRelocs := (globalDefs.filter (isPointerReloc globals)).map (·.ofs)
    special :=
      { thisprogs := defOfs "thisprogs", fasttrackarrays := defOfs "__ext__fasttrackarrays" }
    lineNumbers := lines
    notes := headerNotes ++ (if hexen2 then [.hexen2Calls] else []) ++
      statementNotes format limit raw ++ functionNotes functions ++ extNotes }

/-- A program the loader accepted: there is no other way to make one. -/
structure Loaded where
  program : Program
  data : Arr Byte
  parsed : parse data = .ok program

end Qcvm

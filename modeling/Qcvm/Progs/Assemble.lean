import Qcvm.Progs.Load

/-!
# Writing progs files

A small assembler for version-6 files, as the tests have one (`tests/all/support/asm.rs`). The
sections follow the header in the order of the definition; the strings come last, with as many zero
bytes behind them as wanted, so that a large strings section costs nothing to write down.
-/

namespace Qcvm

open Lib

/-- A progs file before it is written. -/
structure Asm where
  statements : List RawStatement := []
  globalDefs : List RawDef := []
  fieldDefs : List RawDef := []
  functions : List RawFunction := []
  globals : List Word := []
  strings : List Byte := []
  /-- Zero bytes at the end of the strings. -/
  padding : Nat := 0
  entityFields : Nat := 0

/-- The 16-bit field of a value. -/
def leBytes16 (v : Nat) : List Byte := [BitVec.ofNat 8 v, BitVec.ofNat 8 (v / 256)]

/-- The 32-bit field of a value. -/
def leBytes32 (v : Nat) : List Byte := leBytes (BitVec.ofNat 32 v)

/-- The record of a statement. -/
def RawStatement.encode (s : RawStatement) : List Byte := [s.op, s.a, s.b, s.c].flatMap leBytes16

/-- The record of a definition. -/
def RawDef.encode (d : RawDef) : List Byte := leBytes16 d.ty ++ leBytes16 d.ofs ++ leBytes32 d.name

/-- The record of a function. -/
def RawFunction.encode (f : RawFunction) : List Byte :=
  leBytes (BitVec.ofInt 32 f.firstStatement) ++
    [f.parmStart, f.locals, 0, f.name, f.file].flatMap leBytes32 ++
    leBytes (BitVec.ofInt 32 f.numParms) ++
    (List.range 8).map fun i => BitVec.ofNat 8 (f.parmSizes.getD i 0)

namespace Asm

variable (asm : Asm)

/-- Bytes of the header. -/
def headerLen : Nat := 60

/-- The sections before the strings. -/
def body : List Byte :=
  asm.statements.flatMap (·.encode) ++ asm.globalDefs.flatMap (·.encode) ++
    asm.fieldDefs.flatMap (·.encode) ++ asm.functions.flatMap (·.encode) ++
    asm.globals.flatMap leBytes

/-- The header fields. -/
def header : Header :=
  let ofsGlobaldefs := headerLen + 8 * asm.statements.length
  let ofsFielddefs := ofsGlobaldefs + 8 * asm.globalDefs.length
  let ofsFunctions := ofsFielddefs + 8 * asm.fieldDefs.length
  let ofsGlobals := ofsFunctions + 36 * asm.functions.length
  { version := 6
    crc := 0
    ofsStatements := headerLen
    numStatements := asm.statements.length
    ofsGlobaldefs := ofsGlobaldefs
    numGlobaldefs := asm.globalDefs.length
    ofsFielddefs := ofsFielddefs
    numFielddefs := asm.fieldDefs.length
    ofsFunctions := ofsFunctions
    numFunctions := asm.functions.length
    ofsStrings := ofsGlobals + 4 * asm.globals.length
    lenStrings := asm.strings.length + asm.padding
    ofsGlobals := ofsGlobals
    numGlobals := asm.globals.length
    entityFields := asm.entityFields }

/-- The header fields in file order. -/
def words : List Nat :=
  let h := asm.header
  [h.version, h.crc, h.ofsStatements, h.numStatements, h.ofsGlobaldefs, h.numGlobaldefs,
    h.ofsFielddefs, h.numFielddefs, h.ofsFunctions, h.numFunctions, h.ofsStrings, h.lenStrings,
    h.ofsGlobals, h.numGlobals, h.entityFields]

/-- The bytes that are written out. -/
def bytes : List Byte := asm.words.flatMap leBytes32 ++ (asm.body ++ asm.strings)

/-- `build`: writes the program in version 6. -/
def build : Arr Byte :=
  (Arr.ofList asm.bytes).resize (asm.bytes.length + asm.padding) 0

end Asm

end Qcvm

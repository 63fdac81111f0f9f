import Qcvm.Opcode

/-!
# The on-disk formats

The headers and raw records of every progs format (`progs/format.rs`). A record is cut out of its
section as an array of its own, so a field past its end reads as 0, as `unwrap_or(0)` does.
-/

namespace Qcvm

open Lib

/-- The on-disk format a program was loaded from. -/
inductive ProgsFormat where
  | qTest
  | v6
  | fte16
  | fte32
  | kk7
  | uHexen2
  deriving DecidableEq, Repr

/-- Whether statement operands are 16-bit. -/
def ProgsFormat.has16bitStatements : ProgsFormat → Bool
  | .qTest | .v6 | .fte16 => true
  | .fte32 | .kk7 | .uHexen2 => false

/-- Why a function record was rejected. -/
inductive InvalidFunction where
  | entryOutOfRange
  | localsOutOfRange
  deriving DecidableEq, Repr

/-- Something noteworthy the loader did or found. -/
inductive LoadNote where
  | assumedKk7 (secondaryVersion : Nat)
  | hexen2Calls
  | poisonedStatement (index opcode : Nat)
  | jumpOutOfRange (index : Nat)
  | invalidFunction (index : Nat) (reason : InvalidFunction)
  | typesIgnored
  | lineNumbersIgnored
  | bodylessIgnored
  deriving DecidableEq, Repr

/-- Why a program could not be loaded. -/
inductive LoadError where
  | truncated
  | unsupportedVersion (version : Nat)
  | compressed (mask : Nat)
  | sectionOutOfBounds (name : String)
  | namesTooLarge
  deriving DecidableEq, Repr

/-- `FTE16_MAGIC`. -/
def fte16Magic : Nat := 0x021B1461

/-- `FTE32_MAGIC`. -/
def fte32Magic : Nat := 0x65167402

/-- `UHEXEN2_MAGIC`, `"UH27"`. -/
def uHexen2Magic : Nat := 0x37324855

/-- `KK7_MAGIC`, `"KKQW"`. -/
def kk7Magic : Nat := 0x57514B4B

/-- The version-6 header fields, shared by every format. -/
structure Header where
  version : Nat
  crc : Nat
  ofsStatements : Nat
  numStatements : Nat
  ofsGlobaldefs : Nat
  numGlobaldefs : Nat
  ofsFielddefs : Nat
  numFielddefs : Nat
  ofsFunctions : Nat
  numFunctions : Nat
  ofsStrings : Nat
  lenStrings : Nat
  ofsGlobals : Nat
  numGlobals : Nat
  entityFields : Nat

/-- The extra fields of a version-7 header that the loader uses. -/
structure ExtHeader where
  ofsLinenums : Nat
  ofsBodylessfuncs : Nat
  numBodylessfuncs : Nat
  numTypes : Nat
  blockscompressed : Nat

/-- The `n` words from byte `start` on. -/
def fields (data : Arr Byte) (start n : Nat) : Except LoadError (List Nat) :=
  (List.range n).mapM fun i =>
    match u32At data (4 * i + start) with
    | some w => .ok w.toNat
    | none => .error .truncated

/-- The header fields in file order. -/
def Header.ofWords (f : List Nat) : Header where
  version := f.getD 0 0
  crc := f.getD 1 0
  ofsStatements := f.getD 2 0
  numStatements := f.getD 3 0
  ofsGlobaldefs := f.getD 4 0
  numGlobaldefs := f.getD 5 0
  ofsFielddefs := f.getD 6 0
  numFielddefs := f.getD 7 0
  ofsFunctions := f.getD 8 0
  numFunctions := f.getD 9 0
  ofsStrings := f.getD 10 0
  lenStrings := f.getD 11 0
  ofsGlobals := f.getD 12 0
  numGlobals := f.getD 13 0
  entityFields := f.getD 14 0

/-- The format a version-7 file's secondary version selects. -/
def secondaryFormat (version : Nat) : ProgsFormat × List LoadNote :=
  if version = fte16Magic then (.fte16, [])
  else if version = fte32Magic then (.fte32, [])
  else if version = uHexen2Magic then (.uHexen2, [])
  else if version = kk7Magic then (.kk7, [])
  else (.kk7, [.assumedKk7 version])

/-- `read_header`: reads the header and determines the format. -/
def readHeader (data : Arr Byte) :
    Except LoadError (Header × Option ExtHeader × ProgsFormat × List LoadNote) := do
  let header := Header.ofWords (← fields data 0 15)
  match header.version with
  | 3 => return (header, none, .qTest, [])
  | 6 => return (header, none, .v6, [])
  | 7 =>
    let f ← fields data 60 8
    let ext : ExtHeader :=
      { ofsLinenums := f.getD 1 0, ofsBodylessfuncs := f.getD 2 0, numBodylessfuncs := f.getD 3 0
        numTypes := f.getD 5 0, blockscompressed := f.getD 6 0 }
    let (format, notes) := secondaryFormat (f.getD 7 0)
    if format = .fte16 ∨ format = .fte32 then
      if ext.blockscompressed ≠ 0 then throw (.compressed ext.blockscompressed)
      return (header, some ext, format, notes)
    else
      -- FTE ignores the extension fields of KK7 and uHexen2 files.
      return (header, none, format, notes)
  | other => throw (.unsupportedVersion other)

/-- Record sizes in bytes for a format. -/
structure RecordLayout where
  statement : Nat
  define : Nat
  function : Nat

/-- `layout`. -/
def layout : ProgsFormat → RecordLayout
  | .qTest => ⟨12, 12, 64⟩
  | .v6 | .fte16 => ⟨8, 8, 36⟩
  | .fte32 | .uHexen2 => ⟨16, 12, 36⟩
  | .kk7 => ⟨16, 8, 36⟩

/-- `section`: the bytes of a section of `count` records of `size` bytes at `ofs`. -/
def fileSection (data : Arr Byte) (ofs count size : Nat) (name : String) :
    Except LoadError (Arr Byte) :=
  if count = 0 then .ok .empty
  else if ofs + count * size ≤ data.size then .ok (data.extract ofs (count * size))
  else .error (.sectionOutOfBounds name)

/-- Record `i` of a section. -/
def recordAt (bytes : Arr Byte) (size i : Nat) : Arr Byte := bytes.extract (i * size) size

/-- The records of a section (`chunks_exact`). -/
def records (bytes : Arr Byte) (size : Nat) : List (Arr Byte) :=
  (List.range (bytes.size / size)).map (recordAt bytes size)

/-- The 16-bit field at `off`, 0 if there is none. -/
def w16 (rec : Arr Byte) (off : Nat) : Nat := (u16At rec off).getD 0

/-- The 32-bit field at `off`, 0 if there is none. -/
def w32 (rec : Arr Byte) (off : Nat) : Word := (u32At rec off).getD 0

/-- A statement as stored in the file. -/
structure RawStatement where
  op : Nat
  a : Nat
  b : Nat
  c : Nat
  line : Option Nat
  deriving DecidableEq, Repr, Inhabited

/-- `decode_statement`. -/
def decodeStatement (format : ProgsFormat) (rec : Arr Byte) : RawStatement :=
  match format with
  | .qTest => ⟨w16 rec 4, w16 rec 6, w16 rec 8, w16 rec 10, some (w32 rec 0).toNat⟩
  | .v6 | .fte16 => ⟨w16 rec 0, w16 rec 2, w16 rec 4, w16 rec 6, none⟩
  | .fte32 | .kk7 =>
    ⟨(w32 rec 0).toNat, (w32 rec 4).toNat, (w32 rec 8).toNat, (w32 rec 12).toNat, none⟩
  | .uHexen2 =>
    ⟨(w32 rec 0 >>> 16).toNat, (w32 rec 4).toNat, (w32 rec 8).toNat, (w32 rec 12).toNat, none⟩

/-- A definition as stored in the file. -/
structure RawDef where
  ty : Nat
  ofs : Nat
  name : Nat

/-- `decode_def`. -/
def decodeDef (format : ProgsFormat) (rec : Arr Byte) : RawDef :=
  match format with
  | .qTest => ⟨(w32 rec 0).toNat, (w32 rec 8).toNat, (w32 rec 4).toNat⟩
  | .v6 | .fte16 | .kk7 => ⟨w16 rec 0, w16 rec 2, (w32 rec 4).toNat⟩
  | .fte32 => ⟨(w32 rec 0).toNat, (w32 rec 4).toNat, (w32 rec 8).toNat⟩
  | .uHexen2 => ⟨(w32 rec 0 >>> 16).toNat, (w32 rec 4).toNat, (w32 rec 8).toNat⟩

/-- A function record as stored in the file; the signed fields are integers. -/
structure RawFunction where
  firstStatement : Int
  parmStart : Nat
  locals : Nat
  name : Nat
  file : Nat
  numParms : Int
  parmSizes : List Nat

/-- `decode_function`. -/
def decodeFunction (format : ProgsFormat) (rec : Arr Byte) : RawFunction :=
  match format with
  | .qTest =>
    { firstStatement := (w32 rec 0).toInt
      parmStart := (w32 rec 28).toNat
      locals := (w32 rec 8).toNat
      name := (w32 rec 16).toNat
      file := (w32 rec 20).toNat
      numParms := (w32 rec 24).toInt
      -- The sizes are words here; one that fits no byte counts as 255.
      parmSizes := (List.range 8).map fun i => min (w32 rec (4 * i + 32)).toNat 255 }
  | _ =>
    { firstStatement := (w32 rec 0).toInt
      parmStart := (w32 rec 4).toNat
      locals := (w32 rec 8).toNat
      name := (w32 rec 16).toNat
      file := (w32 rec 20).toNat
      numParms := (w32 rec 24).toInt
      parmSizes := (List.range 8).map fun i => (rec.get (28 + i)).toNat }

lemma statement_pos (format : ProgsFormat) : 0 < (layout format).statement := by
  cases format <;> decide

/-- A section holds exactly the bytes asked for. -/
lemma size_of_fileSection {data bytes : Arr Byte} {ofs count size : Nat} {name : String}
    (e : fileSection data ofs count size name = .ok bytes) :
    bytes.size = count * size ∧ (count ≠ 0 → ofs + count * size ≤ data.size) := by
  unfold fileSection at e
  split at e
  next zero =>
    cases e
    simp [zero]
  next =>
    split at e
    next fits =>
      cases e
      exact ⟨rfl, fun _ => fits⟩
    next => cases e

end Qcvm

import Qcvm.Interp.View

/-!
# The general memory operations of the interpreter

The out-of-line helpers of `vm/interp.rs`: field stores, string texts and comparisons, and pointer
reads and writes with FTE's fallbacks.
-/

namespace Qcvm

open Lib

namespace Core

variable (core : Core)

/-- `bad_field_access`: warns about an invalid entity or field in a field load. -/
def badFieldAccess (e f : Word) : Core :=
  if e.toNat ≥ core.mem.numEdicts then core.warn (.badEntity e) else core.warn (.badField f.toInt)

/-- `store_field`: writes the words `vs` into field `f` of entity `e`. -/
def storeField (e f : Word) (vs : List Word) : Core :=
  if e.toNat ≥ core.mem.numEdicts then core.warn (.badEntity e)
  else
    match core.mem.fieldOffset e.toNat f.toNat vs.length with
    | none => core.warn (.badField f.toInt)
    | some o =>
      if core.mem.guarded e.toNat then core.warn (.readOnlyEntity e)
      else
        let put := fun (m : Memory) (v : Word × Nat) => m.setEntWord (o + 4 * v.2) v.1
        { core with mem := vs.zipIdx.foldl put core.mem }

/-- `str_or_warn`: the text of a string reference, warning (and using the empty one) if it resolves
to nothing. -/
def strOrWarn (r : Word) : List Byte × Core :=
  match core.strBytes r with
  | none => ([], core.warn (.badString r))
  | some text => (text, core)

/-- `strings_equal`: identical references are equal; a null reference equals any string that
resolves to empty; otherwise contents are compared. -/
def stringsEqual (a b : Word) : Bool × Core :=
  if a = b then (true, core)
  else if a = 0 ∨ b = 0 then
    let (text, core) := core.strOrWarn (if a = 0 then b else a)
    (text.isEmpty, core)
  else
    let core := (core.strOrWarn a).2
    let core := (core.strOrWarn b).2
    ((core.strBytes a).getD [] == (core.strBytes b).getD [], core)

/-- The difference of the first bytes that differ, as `strcmp` computes it. -/
def strcmp : List Byte → List Byte → Int
  | [], [] => 0
  | [], y :: _ => -(y.toNat : Int)
  | x :: _, [] => x.toNat
  | x :: xs, y :: ys => if x = y then strcmp xs ys else (x.toNat : Int) - y.toNat

/-- `string_compare`: the `EQ_S` or `NE_S` result word. -/
def stringCompare (F : FloatOps) (ne : Bool) (a b : Word) : Word × Core :=
  let (eq, core) := core.stringsEqual a b
  if !ne then (fbool eq, core)
  else if eq || !core.config.compat.neSRawStrcmp then (fbool !eq, core)
  else
    let diff := strcmp ((core.strBytes a).getD []) ((core.strBytes b).getD [])
    (F.ofI32 (BitVec.ofInt 32 diff), core)

/-- The sentinel pointer `ADDRESS` gives for a protected entity. -/
def sentinelPointer : Word := 0xFFFFFFFF

/-- `ptr_read_slow`. -/
def ptrReadSlow (n : Nat) (base offset addr : Word) : Except ErrorKind (List Byte) :=
  if addr = sentinelPointer then .ok (List.replicate n 0)
  else
    let data : Option (Arr Byte) := match classify base with
      | .temp slot => core.strings.tempRaw slot
      | .static index => (core.strings.staticStr index).map .ofList
      | .linear _ => none
    match data with
    | none => .error (.badPointerRead addr)
    | some data => .ok (data.slice offset.toNat n)

/-- `ptr_read`: reads `n` bytes through a pointer, `base + offset`. -/
def ptrRead (n : Nat) (base offset : Word) : Except ErrorKind (List Byte) :=
  match core.mem.read (base + offset) n with
  | some bytes => .ok bytes
  | none => core.ptrReadSlow n base offset (base + offset)

/-- `ptr_write_slow`. -/
def ptrWriteSlow (base offset addr : Word) (bytes : List Byte) (err : WriteError) :
    Except ErrorKind Unit × Core :=
  if addr = sentinelPointer then (.ok (), core)
  else if base &&& tagMask = tempTag then
    let start := offset.toNat
    let slot := (base &&& indexMask).toNat
    match core.strings.tempRawMut slot (start + bytes.length) with
    | none => (.error (.badPointerWrite addr), core)
    | some (data, strings) =>
      if start + bytes.length ≤ data.size then
        let slots := strings.slots.set slot (some (data.write start bytes))
        (.ok (), { core with strings := { strings with slots := slots } })
      else (.error (.badPointerWrite addr), { core with strings := strings })
  else
    match err with
    | .null => (.error .nullPointerWrite, core)
    | _ => (.error (.badPointerWrite addr), core)

/-- `ptr_write`: writes bytes through a pointer, `base + offset`. Protected entities are skipped
with a warning. -/
def ptrWrite (base offset : Word) (bytes : List Byte) : Except ErrorKind Unit × Core :=
  let addr := base + offset
  match core.mem.write addr bytes with
  | .ok mem => (.ok (), { core with mem := mem })
  | .error (.guarded e) => (.ok (), core.warn (.readOnlyEntity (BitVec.ofNat 32 e)))
  | .error err => core.ptrWriteSlow base offset addr bytes err

end Core

/-- The read-modify-write opcodes that go through a pointer in operand `b`. -/
inductive PointerStore where
  | compound (op : Compound)
  | mulVF
  | addV
  | subV
  | bitSet
  | bitClr
  deriving DecidableEq, Repr

/-- Bytes the opcode reads and writes. -/
def PointerStore.len : PointerStore → Nat
  | .mulVF | .addV | .subV => 12
  | .compound _ | .bitSet | .bitClr => 4

namespace Memory

variable (m : Memory)

/-- The word at a pointer, 0 if it is not readable. -/
def peek (p : Word) : Word := (m.readU32 p).getD 0

/-- Writes a word at a pointer; a failed write is dropped. -/
def poke (p v : Word) : Memory :=
  match m.writeU32 p v with
  | .ok m => m
  | .error _ => m

/-- One component of a vector store: `*p = v`, then global `oc = v`. -/
def pokeSet (p : Word) (oc : Nat) (v : Word) : Memory := (m.poke p v).setG oc v

/-- The memory after the store, once the write has been checked. -/
def pointerStore (F : FloatOps) (op : PointerStore) (p : Word) (oa oc : Nat) : Memory :=
  let offsets : List Nat := [0, 4, 8]
  match op with
  | .mulVF =>
    let f := m.g oa
    offsets.foldl (fun m k =>
      let at' := p + BitVec.ofNat 32 k
      m.pokeSet at' (oc + k) (F.mul (m.peek at') f)) m
  | .addV =>
    offsets.foldl (fun m k =>
      let at' := p + BitVec.ofNat 32 k
      m.pokeSet at' (oc + k) (F.add (m.peek at') (m.g (oa + k)))) m
  | .subV =>
    offsets.foldl (fun m k =>
      let at' := p + BitVec.ofNat 32 k
      m.pokeSet at' (oc + k) (F.sub (m.peek at') (m.g (oa + k)))) m
  | .bitSet => m.poke p (F.ofI32 (F.f2i (m.peek p) ||| F.f2i (m.g oa)))
  | .bitClr => m.poke p (F.ofI32 (F.f2i (m.peek p) &&& ~~~F.f2i (m.g oa)))
  | .compound op => m.pokeSet p oc (op.apply F (m.peek p) (m.g oa))

end Memory

/-- `compound_pointer_store`. -/
def Core.compoundPointerStore (core : Core) (F : FloatOps) (op : PointerStore) (oa ob oc : Nat) :
    Except ErrorKind Unit × Core :=
  let p := core.mem.g ob
  match core.mem.checkWrite p op.len with
  | .ok _ => (.ok (), { core with mem := core.mem.pointerStore F op p oa oc })
  | .error (.guarded e) => (.ok (), core.warn (.readOnlyEntity (BitVec.ofNat 32 e)))
  | .error .null => (.error .nullPointerWrite, core)
  | .error (.invalid _) => (.error (.badPointerWrite p), core)

end Qcvm

import Mathlib.Data.Nat.Log
import Qcvm.Vm.Core

/-!
# Parsing JSON into memory

`json_parse` of `stdlib/json.rs`. The parser of the text is not part of the repository: a document
is the tree of the events it delivers, the same in both passes. The first pass measures the tree,
the second writes it into a heap block: nodes of 16 bytes, the children of each container next to
each other, then the names. The writer drops a write that does not fit the block; `dropped` counts
those for the specification, the code does not.

Sizes are natural numbers; child counts and addresses are `u32` values.
-/

namespace Qcvm.Stdlib

open Lib

/-- A document, as the events of the parser: numbers are the doubles that they are stored as,
strings and keys the bytes of their text. -/
inductive Json where
  | null
  | bool (v : Bool)
  | number (v : DWord)
  | string (v : List Byte)
  | array (elements : List Json)
  | object (members : List (List Byte × Json))

def typeString : Word := 0
def typeNumber : Word := 1
def typeObject : Word := 2
def typeArray : Word := 3
def typeTrue : Word := 4
def typeFalse : Word := 5
def typeNull : Word := 6

/-- Bytes per node. -/
def nodeSize : Nat := 16

/-- `qc_text`: text as stored in memory, a NUL as the overlong `C0 80`. -/
def qcText (s : List Byte) : List Byte := s.flatMap fun b => if b = 0 then [0xC0, 0x80] else [b]

/-- `qc_len`: the length of `qcText` without building it. -/
def qcLen (s : List Byte) : Nat := s.length + s.countP (· = 0)

/-- `name_bytes`: bytes a name takes in the names area, with its NUL. -/
def nameBytes (len : Nat) : Nat := if len = 0 then 0 else len + 1

/-- `index_digits`: decimal digits of an array index. -/
def indexDigits (i : Nat) : Nat := if i = 0 then 1 else Nat.log 10 i + 1

/-- `u32::to_string`: the decimal digits of an array index. -/
def decimal (i : Nat) : List Byte :=
  if _h : i < 10 then [BitVec.ofNat 8 (48 + i)]
  else decimal (i / 10) ++ [BitVec.ofNat 8 (48 + i % 10)]
termination_by i
decreasing_by omega

/-! ## Pass 1 -/

/-- What the first pass records: node count, name bytes, and the child count of every container in
pre-order. -/
structure Measure where
  nodes : Nat
  names : Nat
  limit : Nat
  counts : List Nat

namespace Measure

/-- A node with a name of this length; `none` once the layout would exceed the limit. -/
def enter (m : Measure) (name : Nat) : Option Measure :=
  if m.limit < (m.nodes + 1) * nodeSize + (m.names + nameBytes name) then none
  else some { m with nodes := m.nodes + 1, names := m.names + nameBytes name }

/-- `open`: a count slot for a container about to be measured. -/
def openSlot (m : Measure) : Measure := { m with counts := m.counts ++ [0] }

/-- `close`. -/
def close (m : Measure) (slot n : Nat) : Measure := { m with counts := m.counts.set slot n }

mutual

/-- `MeasureNode::deserialize` and the visitor of its value. -/
def node (m : Measure) (name : Nat) : Json → Option Measure
  | .null => m.enter name
  | .bool _ => m.enter name
  | .number _ => m.enter name
  | .string _ => m.enter name
  | .array es =>
    (m.enter name).bind fun m =>
      (elements m.openSlot 0 es).map fun r => r.1.close m.counts.length r.2
  | .object ms =>
    (m.enter name).bind fun m =>
      (members m.openSlot 0 ms).map fun r => r.1.close m.counts.length r.2

/-- The loop of `visit_seq`, with the number of elements so far. -/
def elements (m : Measure) (n : Nat) : List Json → Option (Measure × Nat)
  | [] => some (m, n)
  | e :: es => (node m (indexDigits n) e).bind fun m => elements m (saturatingAdd n 1) es

/-- The loop of `visit_map`. -/
def members (m : Measure) (n : Nat) : List (List Byte × Json) → Option (Measure × Nat)
  | [] => some (m, n)
  | (key, v) :: ms => (node m (qcLen key) v).bind fun m => members m (saturatingAdd n 1) ms

end

/-- Bytes of the block. -/
def size (m : Measure) : Nat := m.nodes * nodeSize + m.names

end Measure

/-- `measure`, of a document that is valid. -/
def measure (doc : Json) (limit : Nat) : Option Measure := Measure.node ⟨0, 0, limit, []⟩ 0 doc

/-! ## Pass 2 -/

/-- The block being built, where its next node and name go, the child counts that are left, and the
temp strings of the VM. -/
structure Writer where
  strings : Strings
  out : Arr Byte
  base : Nat
  nextNode : Nat
  nextName : Nat
  counts : List Nat
  /-- An allocation of a temp string failed. -/
  failed : Bool
  /-- The number of writes that did not fit the block. -/
  dropped : Nat

/-- Two words as the 8 value bytes of a node. -/
def words (a b : Word) : List Byte := leBytes a ++ leBytes b

/-- `f64::to_le_bytes`. -/
def doubleBytes (v : DWord) : List Byte := words (v.extractLsb' 0 32) (v.extractLsb' 32 32)

/-- The bits of the double 1. -/
def one : DWord := 0x3FF0000000000000

namespace Writer

/-- `addr`: the address of an offset in the block. -/
def addr (w : Writer) (offset : Nat) : Word := BitVec.ofNat 32 ((checkedAdd w.base offset).getD 0)

/-- `put`: writes bytes that fit the block. -/
def put (w : Writer) (pos : Nat) (bytes : List Byte) : Writer :=
  if pos + bytes.length ≤ w.out.size then { w with out := w.out.write pos bytes }
  else { w with dropped := w.dropped + 1 }

/-- `name`: stores a name in the names area and gives its address, null for an empty name. -/
def name (w : Writer) (name : List Byte) : Word × Writer :=
  if name = [] then (0, w)
  else (w.addr w.nextName, { w.put w.nextName name with nextName := w.nextName + name.length + 1 })

/-- `node`: writes the type and the name of a node and the 8 bytes after them. -/
def node (w : Writer) (slot : Nat) (ty name : Word) (value : List Byte) : Writer :=
  ((w.put (slot * nodeSize) (leBytes ty)).put (slot * nodeSize + 4) (leBytes name)).put
    (slot * nodeSize + 8) value

/-- `children`: the number of children of the next container; their slots are taken. -/
def children (w : Writer) : Nat × Writer :=
  (w.counts.headD 0, { w with counts := w.counts.tail, nextNode := w.nextNode + w.counts.headD 0 })

/-- `container`. -/
def container (w : Writer) (slot : Nat) (ty name : Word) (first n : Nat) : Writer :=
  w.node slot ty name (words (w.addr (first * nodeSize)) (BitVec.ofNat 32 n))

/-- `visit_str`: the text becomes a temp string. -/
def string (w : Writer) (slot : Nat) (name : Word) (v : List Byte) : Bool × Writer :=
  match w.strings.alloc (qcText v) with
  | (.ok r, strings) => (true, { w with strings := strings }.node slot typeString name (words r 0))
  | (.error _, strings) => (false, { w with strings := strings, failed := true })

mutual

/-- `WriteNode`: the visitor of a value that goes to `slot`; false if the pass failed. -/
def value (w : Writer) (slot : Nat) (name : Word) : Json → Bool × Writer
  | .null => (true, w.node slot typeNull name (List.replicate 8 0))
  | .bool v =>
    (true, w.node slot (if v then typeTrue else typeFalse) name (doubleBytes (if v then one else 0)))
  | .number v => (true, w.node slot typeNumber name (doubleBytes v))
  | .string v => w.string slot name v
  | .array es =>
    elements (w.children.2.container slot typeArray name w.nextNode w.children.1)
      w.nextNode 0 w.children.1 es
  | .object ms =>
    members (w.children.2.container slot typeObject name w.nextNode w.children.1)
      w.nextNode 0 w.children.1 ms

/-- The loop of `visit_seq` from element `k` of `n` on. The parser fails when the document has
fewer or more elements than the loop takes. -/
def elements (w : Writer) (first k n : Nat) : List Json → Bool × Writer
  | [] => if k < n then (false, (w.name (decimal k)).2) else (true, w)
  | e :: es =>
    if k < n then
      let written := value (w.name (decimal k)).2 (first + k) (w.name (decimal k)).1 e
      if written.1 then elements written.2 first (k + 1) n es else written
    else (false, w)

/-- The loop of `visit_map` from member `k` of `n` on. -/
def members (w : Writer) (first k n : Nat) : List (List Byte × Json) → Bool × Writer
  | [] => if k < n then (false, w) else (true, w)
  | (key, v) :: ms =>
    if k < n then
      let written := value (w.name (qcText key)).2 (first + k) (w.name (qcText key)).1 v
      if written.1 then members written.2 first (k + 1) n ms else written
    else (false, w)

end

end Writer

/-! ## The builtin -/

/-- `heap_alloc`: a zeroed block on the heap, as a pointer. -/
def heapAlloc (core : Core) (n : Nat) : Option (Nat × Core) :=
  (core.mem.heap.alloc n).1.bind fun offset =>
    (checkedAdd core.mem.hBase offset).map fun p =>
      (p, { core with mem := { core.mem with heap := (core.mem.heap.alloc n).2 } })

/-- `heap_free`. -/
def heapFree (core : Core) (p : Nat) : Core :=
  match core.mem.heap.release (p - core.mem.hBase) with
  | some heap => { core with mem := { core.mem with heap := heap } }
  | none => core

/-- The writer at the start of the second pass. -/
def Measure.writer (m : Measure) (core : Core) (base : Nat) : Writer where
  strings := core.strings
  out := Arr.empty.resize m.size 0
  base := base
  nextNode := 1
  nextName := m.nodes * nodeSize
  counts := m.counts
  failed := false
  dropped := 0

/-- The second pass over a document that was measured. -/
def Measure.write (m : Measure) (core : Core) (base : Nat) (doc : Json) : Bool × Writer :=
  (m.writer core base).value 0 0 doc

/-- What `json_parse` returns: the root node, or null, with a soft error or without. -/
inductive JsonResult where
  | root (p : Nat)
  | null
  | outOfMemory
  | outOfTempStrings
  deriving DecidableEq, Repr

/-- `json_parse`, of a document that is valid. -/
def jsonParse (core : Core) (doc : Json) : JsonResult × Core :=
  match measure doc core.config.limits.heapBytes with
  | none => (.outOfMemory, core)
  | some m =>
    if u32Max < m.size then (.outOfMemory, core)
    else
      match heapAlloc core m.size with
      | none => (.outOfMemory, core)
      | some (base, core) =>
        let written := m.write core base doc
        let core := { core with strings := written.2.strings }
        if written.1 then
          match core.mem.write (BitVec.ofNat 32 base) (written.2.out.slice 0 m.size) with
          | .ok mem => (.root base, { core with mem := mem })
          | .error _ => (.root base, core)
        else (if written.2.failed then .outOfTempStrings else .null, heapFree core base)

/-! ## Nodes -/

/-- A node as read from memory. -/
structure NodeView where
  ty : Word
  name : Word
  a : Word
  b : Word
  deriving DecidableEq, Repr

/-- `read_node`. -/
def readNode (core : Core) (p : Nat) : Option NodeView := do
  let word (k : Nat) : Option Word :=
    (checkedAdd p k).bind fun q => core.mem.readU32 (BitVec.ofNat 32 q)
  return ⟨← word 0, ← word 4, ← word 8, ← word 12⟩

end Qcvm.Stdlib

import Qcvm.Vm.Core

/-!
# Operand views and the inline fast paths

How the interpreter reaches its operands in region S (`Words`, `View`, `window_fits`), and the fast
paths of its inner loop that reach entity fields and pointers without the general memory code. A
fast path that declines returns `none`.
-/

namespace Qcvm

open Lib

/-- `WINDOW`: the bytes of region S the window covers. -/
def windowBytes : Nat := 4194320

/-- `WINDOW_MASK + 1`: operand offsets are taken modulo this within the window. -/
def windowSpan : Nat := 4194304

/-- How the interpreter reaches its operands in region S, and its statements. -/
inductive View where
  /-- Anywhere in region S, bounds-checked. -/
  | whole
  /-- In the window, with masked offsets. -/
  | window
  deriving DecidableEq, Repr

namespace View

/-- The bytes of region S the view covers. -/
def limit (V : View) (s : Arr Byte) : Nat :=
  match V with
  | .whole => s.size
  | .window => windowBytes

/-- Where the view finds an operand offset. -/
def mask (V : View) (o : Nat) : Nat :=
  match V with
  | .whole => o
  | .window => o % windowSpan

/-- `view`: whether region S has the view. -/
def covers (V : View) (s : Arr Byte) : Bool :=
  match V with
  | .whole => true
  | .window => decide (windowBytes ≤ s.size)

/-- `code`: whether a progs' statements have the view. -/
def coversCode (V : View) (code : Arr Stmt) : Bool :=
  match V with
  | .whole => true
  | .window => decide (codeWindow ≤ code.size)

/-- `Code::at`: the statement at `pc`, if there is one. -/
def stmtAt (V : View) (code : Arr Stmt) (pc : Nat) : Option Stmt :=
  match V with
  | .whole => code.get? pc
  | .window => code.get? (pc % codeWindow)

variable (V : View)

/-- `g`: reads a word of region S through the view. -/
def g (s : Arr Byte) (o : Nat) : Word :=
  if V.mask o + 4 ≤ V.limit s then wordAt s (V.mask o) else 0

/-- `set`: writes a word of region S through the view; stray writes are dropped. -/
def set (s : Arr Byte) (o : Nat) (v : Word) : Arr Byte :=
  if V.mask o + 4 ≤ V.limit s then putU32 s (V.mask o) v else s

/-- `bytes`: the `n` bytes at address `p`, if they lie in the view. -/
def bytes (s : Arr Byte) (p n : Nat) : Option (List Byte) :=
  if p + n ≤ V.limit s then some (s.slice p n) else none

end View

/-- Whether every operand of every progs lies in the window and every progs' statements are padded
to `codeWindow`. -/
def windowFits (core : Core) : Bool :=
  decide (windowBytes ≤ core.mem.s.size) && core.progs.all fun ps =>
    decide (ps.gbase + 4 * (ps.numGlobals + 5) ≤ windowSpan - 1 ∧ ps.code.size = codeWindow)

/-- The words of a block of bytes. -/
def blockWords (bytes : List Byte) : List Word := (List.range (bytes.length / 4)).map (wordOf bytes)

/-- The bytes of some words. -/
def wordsBytes (words : List Word) : List Byte := words.flatMap leBytes

namespace Memory

variable (m : Memory)

/-- `ent_field`: the `n` bytes of field `f` of entity `e`, if the entity and field are valid; the
bound of region E checks the entity number. -/
def entField (n : Nat) (e f : Word) : Option (List Byte) :=
  let within := 4 * f.toNat
  if within + n > m.fieldBytes then none
  else
    let off := e.toNat * m.stride + within
    if off + n ≤ m.e.size then some (m.e.slice off n) else none

/-- `store_field_view`: writes words into field `f` of entity `e`, if both are valid and the entity
is writable. -/
def storeFieldView (e f : Word) (words : List Word) : Option Memory :=
  let bytes := wordsBytes words
  let within := 4 * f.toNat
  if within + bytes.length > m.fieldBytes ∨ (m.slots[e.toNat]?).all (·.guarded) then none
  else
    let off := e.toNat * m.stride + within
    if off + bytes.length ≤ m.e.size then some { m with e := m.e.write off bytes } else none

/-- `ent_target`: offset in region E of an `n`-byte access at pointer `p`, if it lies in a valid
field of an allocated entity, and whether that entity is protected. -/
def entTarget (p : Word) (n : Nat) : Option (Nat × Bool) :=
  if p.toNat < m.eBase then none
  else
    let off := p.toNat - m.eBase
    match m.slots[off / m.stride]? with
    | none => none
    | some slot => if off % m.stride + n ≤ m.fieldBytes then some (off, slot.guarded) else none

/-- `ptr_write_view`: writes through pointer `p`, if it lands in the view of region S (not at null)
or in a writable entity field. -/
def ptrWriteView (V : View) (p : Word) (bytes : List Byte) : Option Memory :=
  if p.toNat + bytes.length ≤ V.limit m.s then
    if p = 0 then none else some { m with s := m.s.write p.toNat bytes }
  else
    match m.entTarget p bytes.length with
    | some (off, false) =>
      if off + bytes.length ≤ m.e.size then some { m with e := m.e.write off bytes } else none
    | _ => none

/-- `ptr_read_view`: reads `n` bytes through pointer `p`, if it lands in the view of region S or in
an entity field. -/
def ptrReadView (V : View) (p : Word) (n : Nat) : Option (List Byte) :=
  match V.bytes m.s p.toNat n with
  | some bytes => some bytes
  | none =>
    match m.entTarget p n with
    | some (off, _) => if off + n ≤ m.e.size then some (m.e.slice off n) else none
    | none => none

end Memory

/-- The four compound stores that have a fast path: `*B op= A`. -/
inductive Compound where
  | mul
  | div
  | add
  | sub
  deriving DecidableEq, Repr

/-- The new value `b op a`. -/
def Compound.apply (F : FloatOps) (op : Compound) (b a : Word) : Word :=
  match op with
  | .mul => F.mul b a
  | .div => F.div b a
  | .add => F.add b a
  | .sub => F.sub b a

/-- `compound_store_view`: the new value and the memory it is stored in, when pointer `p` lands in
the view of region S (not at null) or in a writable entity field. -/
def Memory.compoundStoreView (m : Memory) (F : FloatOps) (V : View) (op : Compound) (p a : Word) :
    Option (Word × Memory) :=
  if p.toNat + 4 ≤ V.limit m.s then
    if p = 0 then none
    else
      let v := op.apply F (wordAt m.s p.toNat) a
      some (v, { m with s := putU32 m.s p.toNat v })
  else
    match m.entTarget p 4 with
    | some (off, false) =>
      if off + 4 ≤ m.e.size then
        let v := op.apply F (wordAt m.e off) a
        some (v, { m with e := putU32 m.e off v })
      else none
    | _ => none

end Qcvm

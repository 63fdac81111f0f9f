import Qcvm.Interp.Access
import Qcvm.Lib.Prog

/-!
# The operations a statement is made of

Every arm of the interpreter loop is a program (`Lib.Prog`) over the operations below: reads and
writes of operands through the view, the same through all of region S (`core.mem.g`), the fast paths
with the general code behind them, and the calls into the rest of the VM. Operations that can warn
or fault in the code store the loop's `pc` to `core.x.pc` first, as every such arm does.
-/

namespace Qcvm

open Lib

/-- An animation opcode for the host (or the VM's default implementation) to perform. -/
inductive StateOp where
  | state (frame : Word) (think : FuncRef)
  | cState (first last : Word) (func : FuncRef)
  | cWState (first last : Word) (func : FuncRef)
  | thinkTime (ent delay : Word)
  deriving DecidableEq, Repr

/-- An operation of the interpreter loop. `k` counts words from the operand or address. -/
inductive Micro where
  /-- `g(w, operand + 4k)`. -/
  | get (s : Slot) (k : Nat)
  /-- `set(w, operand + 4k, v)`. -/
  | set (s : Slot) (k : Nat) (v : Word)
  /-- The same through all of region S: `core.mem.g`, `core.mem.set_g`. -/
  | memGet (s : Slot) (k : Nat)
  | memSet (s : Slot) (k : Nat) (v : Word)
  /-- `g(w, gb + off)` and `set(w, gb + off, v)`: globals reached by an index, PARM and RETURN. -/
  | getGlobal (off : Nat)
  | setGlobal (off : Nat) (v : Word)
  /-- `g(w, switch_ref + 4k)`. -/
  | getRef (k : Nat)
  /-- Looks at the core, apart from what the loop keeps in registers of its own. -/
  | look
  | warn (kind : WarningKind)
  | badFieldAccess (e f : Word)
  /-- `STOREF_*` of so many words: `store_field_view`, else `store_field`. -/
  | storeField (words : Nat)
  /-- `STOREP_*`: `ptr_write_view`, else `ptr_write`. -/
  | storeThrough (base offset : Word) (bytes : List Byte)
  /-- `ptr_write`. -/
  | ptrWrite (base offset : Word) (bytes : List Byte)
  /-- `LOADP_*` of so many words into operand `c`: `ptr_read_view`, else `ptr_read`. -/
  | loadThrough (words : Nat) (base offset : Word)
  /-- `ptr_read`. -/
  | ptrRead (n : Nat) (base offset : Word)
  /-- `compound_store_view`, else `compound_pointer_store`. -/
  | compound (op : Compound)
  /-- `compound_pointer_store`. -/
  | pointerStore (op : PointerStore)
  | strOrWarn (r : Word)
  | stringsEqual (a b : Word)
  | stringCompare (ne : Bool) (a b : Word)
  /-- `core.rng.rand15()`. -/
  | rand15
  | setSwitch (kind : SwitchKind)
  | setPushed (pushed : Nat)
  | setArgc (argc : Nat)
  | enter (prnum index resumePc : Nat)
  /-- `core.leave()`; the answer is the frame depth after it. -/
  | leave

/-- What an operation answers with. -/
@[reducible]
def Micro.Answer : Micro → Type
  | .get .. | .memGet .. | .getGlobal .. | .getRef .. | .rand15 | .stringCompare .. => Word
  | .look => Core
  | .storeThrough .. | .ptrWrite .. | .loadThrough .. | .compound .. | .pointerStore ..
  | .enter .. => Except ErrorKind Unit
  | .ptrRead .. => Except ErrorKind (List Byte)
  | .strOrWarn .. => List Byte
  | .stringsEqual .. => Bool
  | .leave => Nat
  | .set .. | .memSet .. | .setGlobal .. | .warn .. | .badFieldAccess .. | .storeField ..
  | .setSwitch .. | .setPushed .. | .setArgc .. => Unit

/-- What the loop holds in local variables while it runs a statement. -/
structure Site where
  view : View
  st : Stmt
  pc : Nat
  /-- The globals base and the number of globals of the current progs, and its number. -/
  gb : Nat
  ng : Nat
  prnum : Nat

/-- A program over the loop's operations. -/
abbrev Arm (α : Type) := Prog Micro.Answer ErrorKind α

namespace Core

/-- Stores the loop's `pc`. -/
def markPc (core : Core) (pc : Nat) : Core := { core with x := { core.x with pc := pc } }

/-- The core without the loop's own registers. -/
def hideLoop (core : Core) : Core := { core.markPc 0 with traced := false }

/-- Replaces region S. -/
def withS (core : Core) (s : Arr Byte) : Core := { core with mem := { core.mem with s := s } }

end Core

namespace View

variable (V : View)

/-- The `n` words from `o` on. -/
def getWords (s : Arr Byte) (o n : Nat) : List Word :=
  (List.range n).map fun k => V.g s (o + 4 * k)

/-- Writes words from `o` on, in order. -/
def setWords (s : Arr Byte) (o : Nat) (vs : List Word) : Arr Byte :=
  vs.zipIdx.foldl (fun s v => V.set s (o + 4 * v.2) v.1) s

end View

namespace Site

variable (site : Site)

/-- Byte offset of word `k` of an operand. -/
def offset (s : Slot) (k : Nat) : Nat := site.st.operand s + 4 * k

/-- `STOREF_*`: the fast path, else `store_field`. -/
def storeField (words : Nat) (core : Core) : Core :=
  let V := site.view
  let s := core.mem.s
  let values := V.getWords s site.st.c words
  match core.mem.storeFieldView (V.g s site.st.a) (V.g s site.st.b) values with
  | some mem => { core with mem := mem }
  | none =>
    let core := core.markPc site.pc
    let values := (List.range words).map fun k => core.mem.g (site.st.c + 4 * k)
    core.storeField (core.mem.g site.st.a) (core.mem.g site.st.b) values

/-- `STOREP_*`: the fast path, else `ptr_write`. -/
def storeThrough (base offset : Word) (bytes : List Byte) (core : Core) :
    Except ErrorKind Unit × Core :=
  match core.mem.ptrWriteView site.view (base + offset) bytes with
  | some mem => (.ok (), { core with mem := mem })
  | none => (core.markPc site.pc).ptrWrite base offset bytes

/-- `LOADP_*`: the fast path, else `ptr_read`. -/
def loadThrough (words : Nat) (base offset : Word) (core : Core) : Except ErrorKind Unit × Core :=
  match core.mem.ptrReadView site.view (base + offset) (4 * words) with
  | some bytes =>
    (.ok (), core.withS (site.view.setWords core.mem.s site.st.c (blockWords bytes)))
  | none =>
    let core := core.markPc site.pc
    match core.ptrRead (4 * words) base offset with
    | .ok bytes => (.ok (), { core with mem := core.mem.setGs site.st.c (blockWords bytes) })
    | .error kind => (.error kind, core)

/-- `MULSTOREP_F` and friends: the fast path, else `compound_pointer_store`. -/
def compound (F : FloatOps) (op : Compound) (core : Core) : Except ErrorKind Unit × Core :=
  let V := site.view
  let s := core.mem.s
  match core.mem.compoundStoreView F V op (V.g s site.st.b) (V.g s site.st.a) with
  | some (v, mem) => (.ok (), { core with mem := { mem with s := V.set mem.s site.st.c v } })
  | none =>
    (core.markPc site.pc).compoundPointerStore F (.compound op) site.st.a site.st.b site.st.c

/-- The meaning of the operations in this place of the code. -/
def handle (F : FloatOps) : (f : Micro) → Core → f.Answer × Core
  | .get s k, core => (site.view.g core.mem.s (site.offset s k), core)
  | .set s k v, core => ((), core.withS (site.view.set core.mem.s (site.offset s k) v))
  | .memGet s k, core => (core.mem.g (site.offset s k), core)
  | .memSet s k v, core => ((), { core with mem := core.mem.setG (site.offset s k) v })
  | .getGlobal off, core => (site.view.g core.mem.s (site.gb + off), core)
  | .setGlobal off v, core => ((), core.withS (site.view.set core.mem.s (site.gb + off) v))
  | .getRef k, core => (site.view.g core.mem.s (core.x.switchRef + 4 * k), core)
  | .look, core => (core.hideLoop, core)
  | .warn kind, core => ((), (core.markPc site.pc).warn kind)
  | .badFieldAccess e f, core => ((), (core.markPc site.pc).badFieldAccess e f)
  | .storeField words, core => ((), site.storeField words core)
  | .storeThrough base offset bytes, core => site.storeThrough base offset bytes core
  | .ptrWrite base offset bytes, core => (core.markPc site.pc).ptrWrite base offset bytes
  | .loadThrough words base offset, core => site.loadThrough words base offset core
  | .ptrRead n base offset, core =>
    let core := core.markPc site.pc
    (core.ptrRead n base offset, core)
  | .compound op, core => site.compound F op core
  | .pointerStore op, core =>
    (core.markPc site.pc).compoundPointerStore F op site.st.a site.st.b site.st.c
  | .strOrWarn r, core => (core.markPc site.pc).strOrWarn r
  | .stringsEqual a b, core => (core.markPc site.pc).stringsEqual a b
  | .stringCompare ne a b, core => (core.markPc site.pc).stringCompare F ne a b
  | .rand15, core =>
    let (v, rng) := core.rng.rand15
    (v, { core with rng := rng })
  | .setSwitch kind, core =>
    ((), { core with x := { core.x with switchRef := site.st.a, switchKind := kind } })
  | .setPushed pushed, core => ((), { core with x := { core.x with pushed := pushed } })
  | .setArgc argc, core => ((), { core with argc := argc })
  | .enter prnum index resumePc, core => (core.markPc site.pc).enter prnum index resumePc
  | .leave, core =>
    let core := (core.markPc site.pc).leave
    (core.frames.length, core)

end Site

/-- Byte offsets of the words an operation reads or writes directly at the statement's operands. -/
def Micro.operandOffsets (st : Stmt) : Micro → List Nat
  | .get s k | .set s k _ | .memGet s k | .memSet s k _ => [st.operand s + 4 * k]
  | .storeField words => [st.a, st.b] ++ (List.range words).map fun k => st.c + 4 * k
  | .loadThrough words _ _ => (List.range words).map fun k => st.c + 4 * k
  | .compound _ => [st.a, st.b, st.c]
  | .pointerStore op =>
    match op with
    | .compound _ => [st.a, st.b, st.c]
    | .mulVF => [st.a, st.b, st.c, st.c + 4, st.c + 8]
    | .addV | .subV => [st.a, st.a + 4, st.a + 8, st.b, st.c, st.c + 4, st.c + 8]
    | .bitSet | .bitClr => [st.a, st.b]
  | _ => []

end Qcvm

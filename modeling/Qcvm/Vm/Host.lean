import Qcvm.Vm.Multiprogs
import Qcvm.Vm.Threads

/-!
# What a host and its builtins do to a VM

The operations of `Vm` that run no QuakeC (`vm/mod.rs`, and what the standard builtins do to the
core directly), as one type. A host, and a builtin between its calls, is any sequence of them.
-/

namespace Qcvm

open Lib

/-- An operation on the VM that runs no QuakeC. -/
inductive HostOp where
  /-- `Memory::set_g` (`Vm::set`, `Vm::ret_raw`). -/
  | setGlobal (off : Nat) (v : Word)
  /-- `Memory::set_ent_word` at a field of an entity (`Vm::set_field`). -/
  | setField (e word : Nat) (v : Word)
  /-- `Memory::write` (`Vm::write_mem`). -/
  | writeMem (p : Word) (bytes : List Byte)
  /-- Writes to the data of a heap block. -/
  | writeHeap (off : Nat) (bytes : List Byte)
  /-- Writes to a temp string, growing it. -/
  | writeTemp (slot start : Nat) (bytes : List Byte)
  | spawn (now : DWord)
  | claim (e : Nat)
  | remove (e : Nat) (now : DWord) (instant : Bool)
  | setGuarded (e : Nat) (on : Bool)
  | ensureField (name : List Byte) (ty : EvType) (words : Nat)
  | heapAlloc (n : Nat)
  | heapFree (off : Nat)
  | heapRealloc (old : Option Nat) (n : Nat)
  | temp (text : List Byte)
  | intern (text : List Byte)
  | pin (r : Word)
  | unpin (r : Word)
  | warn (msg : String)
  | rand
  /-- `Vm::suspend` (`sleep`, `fork`). -/
  | suspend (delay : Word) (resume : Word × Word × Word)
  | setTrace (on : Bool)
  | setDeveloper (on : Bool)
  | collectGarbage
  /-- `Vm::add_progs` up to its call of `init`. -/
  | addProgs (loaded : Loaded) (reserved : Bool)

namespace Core

variable (core : Core)

/-- The regions and thread data a collection scans. -/
def roots : List (Arr Byte) :=
  [core.mem.s, core.mem.e, core.mem.heap.data] ++ core.threads.map fun t => Arr.ofList t.data

/-- `collect_garbage_now`. -/
def collectGarbageNow : Core := { core with strings := core.strings.collect core.roots }

/-- `Vm::ensure_field`, for a field that holds `words` words. -/
def ensureField (name : List Byte) (ty : EvType) (words : Nat) : Core :=
  let ofs := core.fields.words
  match core.fields.get name, checkedAdd ofs words with
  | none, some next =>
    match checkedMul next 4 with
    | some bytes =>
      if bytes > core.mem.stride then core
      else
        { core with
          fields := { core.fields.push name ty ofs with words := next }
          mem := { core.mem with fieldBytes := bytes } }
    | none => core
  | _, _ => core

/-- Writes to the data of a temp string, grown to hold the bytes if it may. -/
def writeTemp (slot start : Nat) (bytes : List Byte) : Core :=
  match core.strings.tempRawMut slot (start + bytes.length) with
  | none => core
  | some (data, strings) =>
    { core with
      strings := { strings with slots := strings.slots.set slot (some (data.write start bytes)) } }

/-- Replaces the heap, if there is another. -/
def withHeap (heap : Option Heap) : Core :=
  { core with mem := { core.mem with heap := heap.getD core.mem.heap } }

/-- An operation of the host. -/
def host (F : FloatOps) (builtins : Builtins) : HostOp → Core
  | .setGlobal off v => { core with mem := core.mem.setG off v }
  | .setField e word v =>
    match core.mem.fieldOffset e word 1 with
    | some off => { core with mem := core.mem.setEntWord off v }
    | none => core
  | .writeMem p bytes =>
    match core.mem.write p bytes with
    | .ok mem => { core with mem := mem }
    | .error _ => core
  | .writeHeap off bytes =>
    core.withHeap (some { core.mem.heap with data := core.mem.heap.data.write off bytes })
  | .writeTemp slot start bytes => core.writeTemp slot start bytes
  | .spawn now =>
    match core.mem.spawn F now core.config.firstSpawnable with
    | .ok (e, mem) => { core with mem := mem }.applySpawnDefaults e
    | .error _ => core
  | .claim e =>
    match core.mem.claim e with
    | .ok mem => { core with mem := mem }.applySpawnDefaults e
    | .error _ => core
  | .remove e now instant =>
    match core.mem.remove e now instant core.removeClears with
    | .ok mem => { core with mem := mem }
    | .error kind => core.warn kind
  | .setGuarded e on =>
    { core with mem := core.mem.modifySlot e fun slot => { slot with guarded := on } }
  | .ensureField name ty words => core.ensureField name ty words
  | .heapAlloc n => core.withHeap (some (core.mem.heap.alloc n).2)
  | .heapFree off => core.withHeap (core.mem.heap.release off)
  | .heapRealloc old n => core.withHeap (some (core.mem.heap.realloc old n).2)
  | .temp text => { core with strings := (core.strings.alloc text).2 }
  | .intern text => { core with strings := (core.strings.intern text).2 }
  | .pin r => { core with strings := core.strings.pin r }
  | .unpin r => { core with strings := core.strings.unpin r }
  | .warn msg => core.warn (.builtin msg)
  | .rand => { core with rng := core.rng.rand15.2 }
  | .suspend delay resume => (core.suspend F delay resume).2
  | .setTrace on => { core with trace := on }
  | .setDeveloper on => { core with config := { core.config with developer := on } }
  | .collectGarbage => if core.nesting > 0 then core else core.collectGarbageNow
  | .addProgs loaded reserved => (core.addProgs F loaded.program builtins reserved).2

end Core

end Qcvm

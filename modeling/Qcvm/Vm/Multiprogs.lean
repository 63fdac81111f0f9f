import Mathlib.Data.List.Sort
import Qcvm.Vm.Core

/-!
# Laying out progs in memory

`build_core` of `vm/mod.rs`, which lays out memory for the main progs, and `vm/multiprogs.rs`, which
adds further ones: strings and globals go to the end of region S, entity fields are unified by name
with the fields already known. Hash maps are association lists; the first entry of a key counts.
-/

namespace Qcvm

open Lib

/-- Bytes a later progs' globals block is followed by. -/
def globalsTailBytes : Nat := 20

/-- What the builtin registry binds; the functions behind the slots are the host's. -/
structure Builtins where
  bindNumber : Nat → Option Nat
  bindName : List Byte → Option Nat
  /-- Whether a slot holds a function (`func`). -/
  func : Nat → Bool

/-- `bind`: the callee of each function record. -/
def bind (program : Program) (builtins : Builtins) : List Callee :=
  (program.functions.take program.numFunctions).map fun f =>
    match f.kind with
    | .null => .null
    | .quakeC _ => .qc
    | .builtin number => (builtins.bindNumber number).elim .missing .builtin
    | .namedBuiltin => (builtins.bindName (program.stringAt f.name)).elim .missing .builtin
    | .invalid _ => .invalid

/-- The address of a global definition in a progs with its globals at `gbase`. -/
def defAddress (d : Def) (gbase : Nat) : Option Nat := do
  checkedAdd (← checkedMul d.ofs 4) gbase

/-- `state_handles`. -/
def stateHandles (program : Program) (gbase : Nat) (fields : FieldTable) : StateHandles :=
  let globalAt := fun name => (program.globalDef (ascii name)).bind (defAddress · gbase)
  let fieldOfs := fun name => (fields.get (ascii name)).map (·.ofs)
  { selfG := globalAt "self"
    timeG := globalAt "time"
    cycleWrappedG := globalAt "cycle_wrapped"
    frameF := fieldOfs "frame"
    thinkF := fieldOfs "think"
    nextthinkF := fieldOfs "nextthink"
    weaponframeF := fieldOfs "weaponframe" }

/-- A progs' view of the shared-global slot of that name. -/
def sharedGlobal (ps : ProgsState) (name : List Byte) : Option SharedGlobal := do
  let d ← ps.program.globalDef name
  let offset ← defAddress d ps.gbase
  return ⟨offset, max (d.ty.words.getD 1) 1⟩

/-- `SharedTable::slot`, as the table it leaves. -/
def addSlot (names : List (List Byte)) (name : List Byte) : List (List Byte) :=
  if name ∈ names then names else names ++ [name]

/-- `register_shared`: registers the shared globals of progs `pr` and fills in the slots every progs
shares. -/
def Core.registerShared (core : Core) (pr : Nat) : Core :=
  match core.progs[pr]? with
  | none => core
  | some ps =>
    let names := ps.program.globalDefs.foldl (fun names d =>
      let name := ps.program.stringAt d.name
      if name ≠ [] ∧ (d.shared ∨ name ∈ core.config.sharedGlobals) then addSlot names name
      else names) core.shared
    { core with
      shared := names
      progs := core.progs.map fun ps => { ps with shared := names.map (sharedGlobal ps) } }

/-- `align_up` to a multiple of `align`. -/
def alignUp (v align : Nat) : Nat := (v + align - 1) / align * align

/-- The least power of two at or above `n`, as an exponent, found among the first `fuel`. -/
def ceilLog2 (n : Nat) : Nat → Nat → Nat
  | shift, 0 => shift
  | shift, fuel + 1 => if n ≤ 2 ^ shift then shift else ceilLog2 n (shift + 1) fuel

/-- The exponent of `checked_next_power_of_two`; `none` if the power does not fit a `u32`. -/
def nextPowerOfTwo (n : Nat) : Option Nat :=
  let shift := ceilLog2 n 0 32
  if shift < 32 then some shift else none

/-- The parts of the address space `build_core` computes. -/
structure Space where
  gbase : Nat
  lsBase : Nat
  lsWords : Nat
  sLen : Nat
  eBase : Nat
  fieldBytes : Nat
  strideShift : Nat
  maxEdicts : Nat
  hBase : Nat

/-- The address-space arithmetic of `build_core`: S, then the largest possible E, then H, all below
`2^31`. -/
def planSpace (program : Program) (config : VmConfig) : Except ErrorKind Space := do
  let limits := config.limits
  let gbase := alignUp (program.strings.size + 1) 4
  let lsBase := gbase + 4 * (program.numGlobals + 3)
  let lsWords := max limits.localStackWords 16
  let sLen := lsBase + 4 * lsWords + 4
  let sReserve := alignUp sLen 1048576 + limits.progsAreaBytes
  let some fieldBytes := checkedMul program.entityFields 4 | throw (.outOfMemory .fields)
  let some wanted := checkedAdd fieldBytes (max config.fieldReserveBytes (fieldBytes / 2))
    | throw (.outOfMemory .fields)
  let some strideShift := nextPowerOfTwo (max wanted 16) | throw (.outOfMemory .fields)
  let fit := (0x80000000 - sReserve - limits.heapBytes - 16) / 2 ^ strideShift
  let maxEdicts := min limits.maxEdicts fit
  if maxEdicts < 1 then throw (.outOfMemory .entities)
  let hBase := alignUp (sReserve + maxEdicts * 2 ^ strideShift) 16
  if gbase > u32Max then throw (.outOfMemory .progsArea)
  if sReserve > u32Max then throw (.outOfMemory .progsArea)
  if hBase > u32Max then throw (.outOfMemory .heap)
  if lsBase > u32Max then throw (.outOfMemory .progsArea)
  return { gbase, lsBase, lsWords, sLen, eBase := sReserve, fieldBytes, strideShift, maxEdicts, hBase }

/-- Writes the initial globals from `gbase` on. -/
def putGlobals (s : Arr Byte) (gbase : Nat) (globals : Arr Word) : Arr Byte :=
  s.write gbase ((List.range globals.size).flatMap fun i => leBytes (globals.get i))

/-- The memory `build_core` lays out, before the load-time fixups. -/
def initialMemory (program : Program) (config : VmConfig) (sp : Space) : Memory :=
  -- Zeros, with the strings copied to the front.
  let s := program.strings.resize sp.sLen 0
  Memory.initWorld
    { s := putGlobals s sp.gbase program.globals
      e := .empty
      eBase := sp.eBase
      strideShift := sp.strideShift
      fieldBytes := sp.fieldBytes
      maxEdicts := sp.maxEdicts
      slots := []
      heap := .new config.limits.heapBytes
      hBase := sp.hBase
      lsBase := sp.lsBase
      lsWords := sp.lsWords }

/-- The word `__ext__fasttrackarrays` is set to. -/
def fasttrackWord (program : Program) : Word :=
  match (program.globalDef (ascii "__ext__fasttrackarrays")).map Def.ty with
  | some EvType.float => 0x3F800000
  | _ => 1

/-- The load-time fixups: pointer relocations, `thisprogs` and `__ext__fasttrackarrays`. -/
def fixGlobals (m : Memory) (program : Program) (gbase : Nat) (thisprogs : Word) : Memory :=
  let m := program.pointerRelocs.foldl (fun m word =>
    let at' := gbase + 4 * word
    m.setG at' ((m.g at' &&& 0x7FFFFFFF) + BitVec.ofNat 32 gbase)) m
  let m := program.special.thisprogs.elim m fun word => m.setG (gbase + 4 * word) thisprogs
  program.special.fasttrackarrays.elim m fun word =>
    m.setG (gbase + 4 * word) (fasttrackWord program)

/-- The fields of the main progs. -/
def mainFields (program : Program) : FieldTable :=
  program.fieldDefs.foldl (fun t d => t.push (program.stringAt d.name) d.ty d.ofs)
    { entries := [], words := program.entityFields }

/-- `build_core`: lays out memory for the main progs and initialises it. -/
def buildCore (program : Program) (builtins : Builtins) (config : VmConfig) :
    Except ErrorKind Core := do
  let sp ← planSpace program config
  let fields := mainFields program
  let fieldOfs := fun name => (fields.get name).map (·.ofs)
  let spawnFill := fun (d : SpawnDefault) => do
    let field ← fieldOfs d.field
    let global := (d.global.bind program.globalDef).map fun g => sp.gbase + 4 * g.ofs
    return (⟨field, global, d.value⟩ : SpawnFill)
  let state := stateHandles program sp.gbase fields
  let core : Core :=
    { mem := fixGlobals (initialMemory program config sp) program sp.gbase 0
      strings := .new config.limits.tempStrings config.limits.tempStringBytes
      progs := [.new program sp.gbase (bind program builtins) state]
      fields := fields
      frames := []
      x := .idle
      argc := 0
      builtin := .null
      nesting := 0
      rng := ⟨config.seed⟩
      config := config
      warnings := []
      warningsThisCall := 0
      suppressed := 0
      raised := []
      trace := false
      traced := false
      removeClears := config.removeClears.filterMap fieldOfs
      spawnDefaults := config.spawnDefaults.filterMap spawnFill
      abortRet := none
      shared := []
      entryDepth := 0
      threads := [] }
  return (core.registerShared 0).applySpawnDefaults 0

/-! ## Adding progs -/

/-- Field words of a program mapped to words of the VM-wide layout. -/
abbrev FieldMap := List (Nat × Nat)

/-- Takes `words` new field words, if they fit in `capacity`. -/
def takeFieldWords (capacity : Nat) (t : FieldTable) (words : Nat) : Option (Nat × FieldTable) := do
  let next ← checkedAdd t.words words
  if next ≤ capacity then some (t.words, { t with words := next }) else none

/-- Maps the words of one definition, unless they are mapped already. -/
def mapWords (ofs unified : Nat) : Nat → FieldMap → Option FieldMap
  | 0, map => some map
  | n + 1, map => do
    let map ← mapWords ofs unified n map
    let word ← checkedAdd ofs n
    let home ← checkedAdd unified n
    return if (map.lookup word).isSome then map else map ++ [(word, home)]

/-- One definition of `map_fields`. -/
def mapField (capacity : Nat) (program : Program) (d : Def) (t : FieldTable) (map : FieldMap) :
    Option (FieldTable × FieldMap) := do
  let name := program.stringAt d.name
  let words := max (d.ty.words.getD 1) 1
  let known := (t.get name).filter fun existing => existing.ty.words = d.ty.words
  let (unified, t) ← match known with
    | some existing => some (existing.ofs, t)
    | none =>
      match map.lookup d.ofs with
      | some u => some (u, t.push name d.ty u)
      | none => (takeFieldWords capacity t words).map fun (u, t) => (u, t.push name d.ty u)
  let map ← mapWords d.ofs unified words map
  return (t, map)

/-- A home for word `w`, if no definition covers it. -/
def mapLoose (capacity w : Nat) (t : FieldTable) (map : FieldMap) :
    Option (FieldTable × FieldMap) :=
  if (map.lookup w).isSome then some (t, map)
  else (takeFieldWords capacity t 1).map fun (u, t) => (t, map ++ [(w, u)])

/-- Bigger definitions come first at equal offsets, so a vector maps before its components. -/
def fieldBefore (a b : Def) : Prop :=
  a.ofs < b.ofs ∨ a.ofs = b.ofs ∧ b.ty.words.getD 1 ≤ a.ty.words.getD 1

instance (a b : Def) : Decidable (fieldBefore a b) := inferInstanceAs (Decidable (_ ∨ _))

/-- `map_fields`: the word map, the field table and the bytes of a block that hold fields; `none`
if the new fields do not fit the reserved space. -/
def mapFields (core : Core) (program : Program) : Option (FieldMap × FieldTable × Nat) := do
  let capacity := core.mem.stride / 4
  let defs := program.fieldDefs.insertionSort fieldBefore
  let (t, map) ← defs.foldlM (fun (t, map) d => mapField capacity program d t map) (core.fields, [])
  let (t, map) ← (List.range program.entityFields).foldlM
    (fun (t, map) w => mapLoose capacity w t map) (t, map)
  let fieldBytes ← checkedMul t.words 4
  return (map, t, fieldBytes)

/-- The relocated value of a typed global of a later progs. -/
def relocateGlobal (program : Program) (sbase prnum : Nat) (map : FieldMap) (ty : EvType)
    (v : Word) : Option Word :=
  match ty with
  | .string =>
    if v ≠ 0 ∧ v.toNat < program.strings.size then some (v + BitVec.ofNat 32 sbase) else none
  | .function =>
    if v ≠ 0 ∧ v.toNat < program.numFunctions then some (v ||| BitVec.ofNat 32 prnum <<< 24)
    else none
  | .field => some (((map.lookup v.toNat).map (BitVec.ofNat 32)).getD v)
  | _ => none

/-- Relocates the typed globals of a later progs. -/
def relocateGlobals (m : Memory) (program : Program) (gbase sbase prnum : Nat) (map : FieldMap) :
    Memory :=
  program.globalDefs.foldl (fun m d =>
    let at' := gbase + 4 * d.ofs
    match relocateGlobal program sbase prnum map d.ty (m.g at') with
    | some v => m.setG at' v
    | none => m) m

/-- The function some other progs than `pr` defines under a name. -/
def externFunction (core : Core) (pr : Nat) (name : List Byte) : Option FuncRef :=
  (core.progs.zipIdx.filter fun o => o.2 ≠ pr).findSome? fun (o, p) => do
    let index ← o.program.functionsByName.lookup name
    let f ← o.program.functions[index]?
    match f.kind with
    | .null | .invalid _ => none
    | _ => if p ≤ 255 then some (.new p index) else none

/-- The function references `link_externs` writes. -/
def externWrites (core : Core) : List (Nat × Word) :=
  core.progs.zipIdx.flatMap fun (ps, pr) =>
    ps.program.bodyless.filterMap fun name => do
      let d ← ps.program.globalDef name
      if d.ty ≠ .function then none
      let at' ← defAddress d ps.gbase
      if core.mem.g at' &&& 0x00FFFFFF ≠ 0 then none
      let f ← externFunction core pr name
      return (at', f.bits)

/-- `link_externs`: writes function references into the globals of bodyless functions that some
loaded progs defines. -/
def Core.linkExterns (core : Core) : Core :=
  { core with mem := (externWrites core).foldl (fun m (at', v) => m.setG at' v) core.mem }

/-- `Vm::add_progs` up to the call of `init`: the progs number, or the resource that is exhausted.
`reserved` says whether the host has memory for region S; the fields are taken before. -/
def Core.addProgs (F : FloatOps) (core : Core) (program : Program) (builtins : Builtins) (reserved : Bool) :
    Except Resource Nat × Core :=
  let pr := core.progs.length
  let sbase := alignUp core.mem.s.size 16
  let gbase := (sbase + program.strings.size + 4) / 4 * 4
  let finish := gbase + 4 * program.numGlobals + globalsTailBytes
  if pr ≥ min core.config.limits.progs 256 then (.error .progs, core)
  else if finish > core.mem.eBase then (.error .progsArea, core)
  else
    match mapFields core program with
    | none => (.error .fields, core)
    | some (map, fields, fieldBytes) =>
      let core := { core with fields := fields, mem := { core.mem with fieldBytes := fieldBytes } }
      if !reserved then (.error .progsArea, core)
      else
        let s := (core.mem.s.resize finish 0).write sbase
          (program.strings.slice 0 program.strings.size)
        let mem := { core.mem with s := putGlobals s gbase program.globals }
        let mem := relocateGlobals mem program gbase sbase pr map
        let mem := fixGlobals mem program gbase (F.ofU32 (BitVec.ofNat 32 pr))
        let ps := ProgsState.new program gbase (bind program builtins)
          (stateHandles program gbase fields)
        let core := { core with mem := mem, progs := core.progs ++ [ps] }
        (.ok pr, (core.registerShared pr).linkExterns)

end Qcvm

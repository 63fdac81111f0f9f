import Qcvm.Vm.Host

/-!
# The address space

Regions S, E and H share one 32-bit space. `Memory.Regions` is what every pointer access relies on
and `Memory.Layout` what keeps the regions apart; both only look at sizes and bases
(`Memory.shape`), so whatever writes bytes keeps them. Spawning, claiming, new fields, new progs and
the heap change the shape, each behind a guard of its own.
-/

namespace Qcvm

open Lib

namespace Memory

/-- The sizes and bases of a memory. -/
structure Shape where
  sSize : Nat
  eSize : Nat
  eBase : Nat
  strideShift : Nat
  fieldBytes : Nat
  maxEdicts : Nat
  slots : Nat
  heapSize : Nat
  heapMax : Nat
  hBase : Nat
  lsBase : Nat
  lsWords : Nat

/-- The shape of a memory. -/
def shape (m : Memory) : Shape where
  sSize := m.s.size
  eSize := m.e.size
  eBase := m.eBase
  strideShift := m.strideShift
  fieldBytes := m.fieldBytes
  maxEdicts := m.maxEdicts
  slots := m.slots.length
  heapSize := m.heap.data.size
  heapMax := m.heap.max
  hBase := m.hBase
  lsBase := m.lsBase
  lsWords := m.lsWords

/-- What a pointer access relies on. -/
structure Regions (m : Memory) : Prop where
  s_le : m.s.size ≤ m.eBase
  e_size : m.e.size = m.slots.length * m.stride
  fields_le : m.fieldBytes ≤ m.stride
  slots_le : m.slots.length ≤ u32Max
  /-- Address 0 is no entity's. -/
  base_pos : 0 < m.eBase

/-- The regions lie apart, below the tagged string references. -/
structure Layout (m : Memory) : Prop extends Regions m where
  slots_le_max : m.slots.length ≤ m.maxEdicts
  e_end : m.eBase + m.maxEdicts * m.stride ≤ m.hBase
  heap : m.heap.Bounded
  h_end : m.hBase + m.heap.max ≤ 2 ^ 31

variable {m m' : Memory}

/-- An entity's block is not empty. -/
lemma stride_pos (m : Memory) : 0 < m.stride := Nat.two_pow_pos _

/-- Addresses in region S fit in a word. -/
lemma Layout.small (l : m.Layout) : m.s.size ≤ u32Max := by
  have := l.s_le
  have := l.e_end
  have := l.h_end
  unfold u32Max
  omega

/-- Within the regions the number of entities is that of the slots. -/
lemma Regions.numEdicts (l : m.Regions) : m.numEdicts = m.slots.length := Nat.min_eq_left l.slots_le

/-- The stride is part of the shape. -/
lemma stride_of_shape (e : m'.shape = m.shape) : m'.stride = m.stride :=
  congrArg (fun sh : Shape => 2 ^ sh.strideShift) e

/-- The order of the regions depends on the shape alone. -/
lemma Regions.of_shape (l : m.Regions) (e : m'.shape = m.shape) : m'.Regions := by
  have stride := stride_of_shape e
  simp only [shape, Shape.mk.injEq] at e
  obtain ⟨s, ent, base, -, fields, -, slots, -, -, -, -, -⟩ := e
  refine ⟨?_, ?_, ?_, ?_, ?_⟩
  · rw [s, base]
    exact l.s_le
  · rw [ent, slots, stride]
    exact l.e_size
  · rw [fields, stride]
    exact l.fields_le
  · rw [slots]
    exact l.slots_le
  · rw [base]
    exact l.base_pos

/-- Writing bytes keeps the layout. -/
lemma Layout.of_shape (l : m.Layout) (e : m'.shape = m.shape) : m'.Layout := by
  have stride := stride_of_shape e
  have regions := l.toRegions.of_shape e
  simp only [shape, Shape.mk.injEq] at e
  obtain ⟨-, -, base, -, -, edicts, slots, heap, limit, hBase, -, -⟩ := e
  refine ⟨regions, ?_, ?_, ?_, ?_⟩
  · rw [slots, edicts]
    exact l.slots_le_max
  · rw [base, edicts, stride, hBase]
    exact l.e_end
  · rw [Heap.Bounded, heap, limit]
    exact l.heap
  · rw [hBase, limit]
    exact l.h_end

/-! ## What keeps the shape -/

/-- A word written to the globals keeps the shape. -/
@[simp] lemma shape_setG (m : Memory) (off : Nat) (v : Word) : (m.setG off v).shape = m.shape := rfl

/-- A word written to a field keeps the shape. -/
@[simp] lemma shape_setEntWord (m : Memory) (off : Nat) (v : Word) :
    (m.setEntWord off v).shape = m.shape := rfl

/-- A write within a region keeps the shape. -/
@[simp] lemma shape_setRegion_write (m : Memory) (loc : Loc) (off : Nat) (bytes : List Byte) :
    (m.setRegion loc ((m.region loc).1.write off bytes)).shape = m.shape := by
  cases loc <;> rfl

/-- Clearing an entity keeps the shape. -/
@[simp] lemma shape_clearEntity (m : Memory) (e : Nat) : (m.clearEntity e).shape = m.shape := rfl

/-- A change of one slot keeps the shape. -/
@[simp] lemma shape_modifySlot (m : Memory) (e : Nat) (f : EntSlot → EntSlot) :
    (m.modifySlot e f).shape = m.shape := by
  simp [modifySlot, shape]

/-- Taking a slot keeps the shape. -/
@[simp] lemma shape_takeSlot (m : Memory) (e : Nat) : (m.takeSlot e).shape = m.shape := by
  simp [takeSlot]

/-- What every step of a fold keeps, the fold keeps. -/
lemma shape_foldl {α : Type} {f : Memory → α → Memory} (keeps : ∀ m a, (f m a).shape = m.shape)
    (l : List α) (m : Memory) : (l.foldl f m).shape = m.shape := by
  induction l generalizing m with
  | nil => rfl
  | cons a l ih => exact (ih (f m a)).trans (keeps m a)

/-- Words written to the globals keep the shape. -/
@[simp] lemma shape_setGs (m : Memory) (off : Nat) (vs : List Word) :
    (m.setGs off vs).shape = m.shape :=
  shape_foldl (fun m (v : Word × Nat) => shape_setG m (off + 4 * v.2) v.1) _ m

/-- A copy of words keeps the shape. -/
@[simp] lemma shape_copyG (m : Memory) (src dst words : Nat) :
    (m.copyG src dst words).shape = m.shape :=
  shape_foldl (fun m i => shape_setG m (dst + 4 * i) (m.g (src + 4 * i))) _ m

/-- A write through a pointer keeps the shape. -/
lemma shape_write {p : Word} {bytes : List Byte} (e : m.write p bytes = .ok m') :
    m'.shape = m.shape := by
  obtain ⟨loc, -, -, rfl⟩ := write_eq_ok.mp e
  exact shape_setRegion_write _ _ _ _

/-- Clearing a field of an entity keeps the shape. -/
@[simp] lemma shape_clearField (m : Memory) (e word : Nat) : (m.clearField e word).shape = m.shape := by
  unfold clearField
  split <;> rfl

/-- A remove keeps the shape. -/
lemma shape_remove {e : Nat} {now : DWord} {instant : Bool} {clear : List Nat}
    (h : m.remove e now instant clear = .ok m') : m'.shape = m.shape := by
  unfold remove at h
  split at h
  next => cases h
  next =>
    split at h
    next => cases h
    next =>
      split at h
      next => cases h
      next =>
        split at h
        next => cases h
        next =>
          cases h
          rw [shape_modifySlot]
          exact shape_foldl (fun m word => shape_clearField m e word) _ _

/-! ## Entities -/

/-- Growing to a new entity keeps the layout. -/
lemma Layout.growTo (l : m.Layout) {e : Nat} (new : m.slots.length ≤ e) (lt : e < m.maxEdicts) :
    (m.growTo e).Layout := by
  have stride : (m.growTo e).stride = m.stride := rfl
  have slots : (m.growTo e).slots.length = e + 1 := by
    simp only [Memory.growTo, List.length_append, List.length_replicate]
    omega
  have larger : m.e.size < (e + 1) * m.stride := by
    rw [l.e_size]
    exact Nat.mul_lt_mul_of_pos_right (by omega) m.stride_pos
  have size : (m.growTo e).e.size = (e + 1) * m.stride := by
    simp only [Memory.growTo, if_pos larger, Arr.size_resize]
  have blocks : e + 1 ≤ m.maxEdicts * m.stride :=
    Nat.le_trans lt (Nat.le_mul_of_pos_right _ m.stride_pos)
  have finish := l.e_end
  have h_end := l.h_end
  refine ⟨⟨l.s_le, ?_, l.fields_le, ?_, l.base_pos⟩, ?_, l.e_end, l.heap, l.h_end⟩
  · rw [size, slots, stride]
  · rw [slots, u32Max]
    omega
  · rw [slots]
    exact lt

/-- Taking a slot keeps the layout. -/
lemma Layout.takeSlot (l : m.Layout) (e : Nat) : (m.takeSlot e).Layout :=
  l.of_shape (shape_takeSlot m e)

/-- A spawn keeps the layout and the stride. -/
lemma Layout.spawn {F : FloatOps} {now : DWord} {first e : Nat} (l : m.Layout)
    (h : m.spawn F now first = .ok (e, m')) : m'.Layout ∧ m'.strideShift = m.strideShift := by
  unfold Memory.spawn at h
  dsimp only at h
  split at h
  next =>
    cases h
    exact ⟨l.takeSlot _, rfl⟩
  next =>
    split at h
    next room =>
      cases h
      have all : m.slots.length ≤ max m.numEdicts first := by
        rw [l.numEdicts]
        exact Nat.le_max_left _ _
      exact ⟨(l.growTo all room).takeSlot _, rfl⟩
    next =>
      split at h
      next =>
        cases h
        exact ⟨l.takeSlot _, rfl⟩
      next => cases h

/-- A claim keeps the layout and the stride. -/
lemma Layout.claim {e : Nat} (l : m.Layout) (h : m.claim e = .ok m') :
    m'.Layout ∧ m'.strideShift = m.strideShift := by
  unfold Memory.claim at h
  split at h
  next => cases h
  next ok =>
    cases h
    split
    next new => exact ⟨((l.growTo new (by omega)).takeSlot e).of_shape (shape_modifySlot _ _ _), rfl⟩
    next => exact ⟨(l.takeSlot e).of_shape (shape_modifySlot _ _ _), rfl⟩

end Memory

/-- A progs with its globals of these names shared. -/
def ProgsState.share (ps : ProgsState) (names : List (List Byte)) : ProgsState :=
  { ps with shared := names.map (sharedGlobal ps) }

namespace Core

/-- The layout of the address space, with room for the fields in use. -/
structure Layout (core : Core) : Prop where
  mem : core.mem.Layout
  words_le : 4 * core.fields.words ≤ core.mem.stride

variable {core core' : Core}

/-- The layout depends on the shape and the fields alone. -/
lemma Layout.of_shape (l : core.Layout) (e : core'.mem.shape = core.mem.shape)
    (f : core'.fields = core.fields) : core'.Layout := by
  have stride := Memory.stride_of_shape e
  exact ⟨l.mem.of_shape e, by rw [f, stride]; exact l.words_le⟩

/-- Replacing the memory by one that is laid out, of the same stride, keeps the layout. -/
lemma Layout.withMem (l : core.Layout) {m : Memory} (mem : m.Layout)
    (shift : m.strideShift = core.mem.strideShift) : { core with mem := m }.Layout :=
  ⟨mem, by
    have := l.words_le
    simpa only [Memory.stride, shift] using this⟩

/-- The spawn defaults keep the shape. -/
@[simp] lemma shape_applySpawnDefaults (core : Core) (e : Nat) :
    (core.applySpawnDefaults e).mem.shape = core.mem.shape := by
  refine Memory.shape_foldl (fun m d => ?_) _ _
  dsimp only
  split <;> rfl

/-- The spawn defaults keep region S. -/
lemma s_applySpawnDefaults (core : Core) (e : Nat) :
    (core.applySpawnDefaults e).mem.s = core.mem.s := by
  unfold applySpawnDefaults
  dsimp only
  generalize core.mem = m
  induction core.spawnDefaults generalizing m with
  | nil => rfl
  | cons d l ih =>
    rw [List.foldl_cons, ih]
    split <;> rfl

/-- A warning keeps the memory. -/
@[simp] lemma mem_warn (core : Core) (kind : WarningKind) : (core.warn kind).mem = core.mem := by
  unfold warn
  dsimp only
  split <;> rfl

/-- A warning keeps the fields. -/
@[simp] lemma fields_warn (core : Core) (kind : WarningKind) :
    (core.warn kind).fields = core.fields := by
  unfold warn
  dsimp only
  split <;> rfl

/-! ## New fields -/

/-- Adding a field keeps the layout: one that does not fit the stride is not added. -/
lemma Layout.ensureField (l : core.Layout) (name : List Byte) (ty : EvType) (words : Nat) :
    (core.ensureField name ty words).Layout := by
  unfold Core.ensureField
  dsimp only
  split
  next next _ _ =>
    split
    next bytes mul =>
      split
      next => exact l
      next fits =>
        obtain ⟨-, rfl⟩ := checkedMul_eq_some.mp mul
        have fits := Nat.le_of_not_lt fits
        have wide : 4 * next ≤ core.mem.stride := by omega
        exact ⟨{ l.mem with fields_le := fits }, wide⟩
    next => exact l
  next => exact l

/-- The fields in use fit the capacity. -/
def Fits (capacity : Nat) (t : FieldTable) : Prop := t.words ≤ capacity

/-- Words taken for a field fit the capacity. -/
lemma takeFieldWords_fits {capacity words u : Nat} {t t' : FieldTable}
    (e : takeFieldWords capacity t words = some (u, t')) : Fits capacity t' := by
  unfold takeFieldWords at e
  obtain ⟨next, -, e⟩ := Option.bind_eq_some_iff.mp e
  split at e
  next fits =>
    cases e
    exact fits
  next => cases e

/-- The fields after mapping one definition fit the capacity. -/
lemma mapField_fits {capacity : Nat} {program : Program} {d : Def} {t t' : FieldTable}
    {map map' : FieldMap} (f : Fits capacity t)
    (e : mapField capacity program d t map = some (t', map')) : Fits capacity t' := by
  unfold mapField at e
  dsimp only at e
  split at e
  next =>
    obtain ⟨_, same, e⟩ := Option.bind_eq_some_iff.mp e
    cases same
    obtain ⟨_, -, e⟩ := Option.bind_eq_some_iff.mp e
    cases e
    exact f
  next =>
    split at e
    next =>
      obtain ⟨_, same, e⟩ := Option.bind_eq_some_iff.mp e
      cases same
      obtain ⟨_, -, e⟩ := Option.bind_eq_some_iff.mp e
      cases e
      exact f
    next =>
      obtain ⟨⟨u, last⟩, found, e⟩ := Option.bind_eq_some_iff.mp e
      obtain ⟨⟨_, mid⟩, taken, same⟩ := Option.map_eq_some_iff.mp found
      cases same
      obtain ⟨_, -, e⟩ := Option.bind_eq_some_iff.mp e
      cases e
      have fits := takeFieldWords_fits taken
      exact fits

/-- The fields after mapping a word without a definition fit the capacity. -/
lemma mapLoose_fits {capacity w : Nat} {t t' : FieldTable} {map map' : FieldMap}
    (f : Fits capacity t) (e : mapLoose capacity w t map = some (t', map')) : Fits capacity t' := by
  unfold mapLoose at e
  split at e
  next =>
    cases e
    exact f
  next =>
    obtain ⟨⟨u, last⟩, taken, same⟩ := Option.map_eq_some_iff.mp e
    cases same
    exact takeFieldWords_fits taken

/-- What every step of a monadic fold keeps, the fold keeps. -/
lemma foldlM_keeps {α β : Type} {f : β → α → Option β} {P : β → Prop}
    (keeps : ∀ b a b', P b → f b a = some b' → P b') {l : List α} {b b' : β} (p : P b)
    (e : l.foldlM f b = some b') : P b' := by
  induction l generalizing b with
  | nil =>
    cases e
    exact p
  | cons a l ih =>
    rw [List.foldlM_cons] at e
    obtain ⟨mid, first, rest⟩ := Option.bind_eq_some_iff.mp e
    exact ih (keeps b a mid p first) rest

/-- The fields after mapping all of a program fit the stride. -/
lemma mapFields_fits {program : Program} {map : FieldMap} {t : FieldTable} {bytes : Nat}
    (l : core.Layout) (e : mapFields core program = some (map, t, bytes)) :
    4 * t.words ≤ core.mem.stride ∧ bytes = 4 * t.words := by
  unfold mapFields at e
  obtain ⟨⟨t₁, map₁⟩, defs, e⟩ := Option.bind_eq_some_iff.mp e
  obtain ⟨⟨_, _⟩, loose, e⟩ := Option.bind_eq_some_iff.mp e
  obtain ⟨fieldBytes, mul, e⟩ := Option.bind_eq_some_iff.mp e
  cases e
  have start : Fits (core.mem.stride / 4) core.fields := by
    have := l.words_le
    unfold Fits
    omega
  have mid : Fits (core.mem.stride / 4) t₁ :=
    foldlM_keeps (P := fun b => Fits (core.mem.stride / 4) b.1)
      (fun b d b' f h => mapField_fits f h) start defs
  have last : Fits (core.mem.stride / 4) t :=
    foldlM_keeps (P := fun b => Fits (core.mem.stride / 4) b.1)
      (fun b w b' f h => mapLoose_fits f h) mid loose
  unfold Fits at last
  obtain ⟨-, rfl⟩ := checkedMul_eq_some.mp mul
  omega

/-! ## New progs -/

/-- Putting globals in place keeps the size of the region. -/
@[simp] lemma size_putGlobals (s : Arr Byte) (gbase : Nat) (globals : Arr Word) :
    (putGlobals s gbase globals).size = s.size := rfl

/-- Setting the special globals keeps the shape. -/
@[simp] lemma shape_fixGlobals (m : Memory) (program : Program) (gbase : Nat) (thisprogs : Word) :
    (fixGlobals m program gbase thisprogs).shape = m.shape := by
  have relocated (l : List Nat) : (l.foldl (fun m word =>
      let at' := gbase + 4 * word
      m.setG at' ((m.g at' &&& 0x7FFFFFFF) + BitVec.ofNat 32 gbase)) m).shape = m.shape := by
    refine Memory.shape_foldl (fun _ _ => ?_) l m
    rfl
  unfold fixGlobals
  cases program.special.thisprogs <;> cases program.special.fasttrackarrays <;>
    simp only [Option.elim_none, Option.elim_some, Memory.shape_setG, relocated]

/-- Relocating globals keeps the shape. -/
@[simp] lemma shape_relocateGlobals (m : Memory) (program : Program) (gbase sbase prnum : Nat)
    (map : FieldMap) : (relocateGlobals m program gbase sbase prnum map).shape = m.shape := by
  refine Memory.shape_foldl (fun m d => ?_) _ _
  dsimp only
  split <;> rfl

/-- Linking externs keeps the shape. -/
@[simp] lemma shape_linkExterns (core : Core) : core.linkExterns.mem.shape = core.mem.shape :=
  Memory.shape_foldl (fun m (w : Nat × Word) => Memory.shape_setG m w.1 w.2) _ _

/-- Registering shared globals keeps the memory. -/
@[simp] lemma mem_registerShared (core : Core) (pr : Nat) :
    (core.registerShared pr).mem = core.mem := by
  unfold registerShared
  split <;> rfl

/-- Registering shared globals keeps the fields. -/
@[simp] lemma fields_registerShared (core : Core) (pr : Nat) :
    (core.registerShared pr).fields = core.fields := by
  unfold registerShared
  split <;> rfl

/-- Where the strings of an added progs go. -/
def nextStrings (core : Core) : Nat := alignUp core.mem.s.size 16

/-- Where its globals go. -/
def nextGlobals (core : Core) (program : Program) : Nat :=
  (core.nextStrings + program.strings.size + 4) / 4 * 4

/-- Where region S ends then. -/
def nextEnd (core : Core) (program : Program) : Nat :=
  core.nextGlobals program + 4 * program.numGlobals + globalsTailBytes

/-- Memory with the strings and the globals of an added progs, as the file has them. -/
def appended (core : Core) (program : Program) (fieldBytes : Nat) : Memory :=
  let s := (core.mem.s.resize (core.nextEnd program) 0).write core.nextStrings
    (program.strings.slice 0 program.strings.size)
  { core.mem with s := putGlobals s (core.nextGlobals program) program.globals, fieldBytes }

/-- The core with an added progs, before externs are linked. -/
def joined (F : FloatOps) (core : Core) (program : Program) (builtins : Builtins) (map : FieldMap)
    (fields : FieldTable) (fieldBytes : Nat) : Core :=
  let pr := core.progs.length
  let gbase := core.nextGlobals program
  let mem := relocateGlobals (core.appended program fieldBytes) program gbase core.nextStrings pr map
  let mem := fixGlobals mem program gbase (F.ofU32 (BitVec.ofNat 32 pr))
  let ps := ProgsState.new program gbase (bind program builtins)
    (stateHandles program gbase fields)
  { core with fields := fields, mem := mem, progs := core.progs ++ [ps] }.registerShared pr

/-- The progs limit, the space for progs or that for fields is exhausted. -/
def Refuses (core : Core) (program : Program) : Prop :=
  min core.config.limits.progs 256 ≤ core.progs.length ∨ core.mem.eBase < core.nextEnd program ∨
    mapFields core program = none

/-- The ways `add_progs` ends: the program is refused and nothing happened, the fields are taken and
the host has no memory, or the progs is there. -/
lemma addProgs_cases (F : FloatOps) (core : Core) (program : Program) (builtins : Builtins)
    (reserved : Bool) :
    (core.Refuses program ∧
        ∃ resource, core.addProgs F program builtins reserved = (.error resource, core)) ∨
      ∃ map fields fieldBytes, core.progs.length < min core.config.limits.progs 256 ∧
        core.nextEnd program ≤ core.mem.eBase ∧
        mapFields core program = some (map, fields, fieldBytes) ∧
        (reserved = false ∧ core.addProgs F program builtins reserved = (.error .progsArea,
            { core with fields := fields, mem := { core.mem with fieldBytes := fieldBytes } }) ∨
          reserved = true ∧ core.addProgs F program builtins reserved = (.ok core.progs.length,
            (core.joined F program builtins map fields fieldBytes).linkExterns)) := by
  unfold Core.addProgs
  dsimp only
  split
  next many => exact .inl ⟨.inl many, _, rfl⟩
  next few =>
    split
    next full => exact .inl ⟨.inr (.inl full), _, rfl⟩
    next below =>
      split
      next unmapped => exact .inl ⟨.inr (.inr unmapped), _, rfl⟩
      next map fields fieldBytes mapped =>
        refine .inr ⟨map, fields, fieldBytes, Nat.lt_of_not_le few, Nat.le_of_not_lt below, mapped, ?_⟩
        cases reserved with
        | false => exact .inl ⟨rfl, rfl⟩
        | true => exact .inr ⟨rfl, rfl⟩

/-- The shape with an added progs is that of the memory with its strings and globals. -/
lemma shape_joined {F : FloatOps} {program : Program} {builtins : Builtins} {map : FieldMap}
    {fields : FieldTable} {fieldBytes : Nat} :
    (core.joined F program builtins map fields fieldBytes).mem.shape
      = (core.appended program fieldBytes).shape := by
  unfold joined
  simp only [mem_registerShared, shape_fixGlobals, shape_relocateGlobals]

/-- Adding progs keeps the layout, also when they are refused. -/
lemma Layout.addProgs {F : FloatOps} {program : Program} {builtins : Builtins} {reserved : Bool}
    (l : core.Layout) : (core.addProgs F program builtins reserved).2.Layout := by
  rcases addProgs_cases F core program builtins reserved with
    ⟨-, _, e⟩ | ⟨map, fields, fieldBytes, -, below, mapped, ends⟩
  · rw [e]
    exact l
  · obtain ⟨words, rfl⟩ := mapFields_fits l mapped
    rcases ends with ⟨-, e⟩ | ⟨-, e⟩
    · rw [e]
      exact ⟨{ l.mem with fields_le := words }, words⟩
    · rw [e]
      have appended : { core with
          fields := fields
          mem := core.appended program (4 * fields.words) }.Layout :=
        ⟨{ l.mem with s_le := below, fields_le := words }, words⟩
      exact appended.of_shape ((shape_linkExterns _).trans shape_joined) (fields_registerShared _ _)

/-! ## The start -/

/-- Aligning goes up. -/
lemma le_alignUp (v : Nat) {align : Nat} (pos : 0 < align) : v ≤ alignUp v align := by
  unfold alignUp
  have := Nat.div_add_mod (v + align - 1) align
  have := Nat.mod_lt (v + align - 1) pos
  rw [Nat.mul_comm]
  omega

/-- Aligning adds less than the alignment. -/
lemma alignUp_lt (v : Nat) {align : Nat} (pos : 0 < align) : alignUp v align < v + align := by
  unfold alignUp
  have := Nat.div_mul_le_self (v + align - 1) align
  omega

/-- A logarithm found within the bound is one of a power that is large enough. -/
lemma le_two_pow_ceilLog2 {n shift fuel : Nat} (lt : ceilLog2 n shift fuel < shift + fuel) :
    n ≤ 2 ^ ceilLog2 n shift fuel := by
  induction fuel generalizing shift with
  | zero => simp [ceilLog2] at lt
  | succ fuel ih =>
    unfold ceilLog2 at lt ⊢
    split
    next fits => exact fits
    next unfit =>
      rw [if_neg unfit] at lt
      exact ih (by omega)

/-- The next power of two is no smaller. -/
lemma le_of_nextPowerOfTwo {n shift : Nat} (e : nextPowerOfTwo n = some shift) : n ≤ 2 ^ shift := by
  unfold nextPowerOfTwo at e
  dsimp only at e
  split at e
  next lt =>
    cases e
    exact le_two_pow_ceilLog2 (by omega)
  next => cases e

/-- What `planSpace` computes and checks. -/
structure Planned (program : Program) (config : VmConfig) (sp : Space) : Prop where
  gbase : sp.gbase = alignUp (program.strings.size + 1) 4
  lsBase : sp.lsBase = sp.gbase + 4 * (program.numGlobals + 3)
  lsWords : sp.lsWords = max config.limits.localStackWords 16
  sLen : sp.sLen = sp.lsBase + 4 * sp.lsWords + 4
  s_le : sp.sLen ≤ sp.eBase
  fieldBytes : sp.fieldBytes = 4 * program.entityFields
  fields_le : sp.fieldBytes ≤ 2 ^ sp.strideShift
  edicts : 1 ≤ sp.maxEdicts
  e_end : sp.eBase + sp.maxEdicts * 2 ^ sp.strideShift ≤ sp.hBase
  h_end : sp.hBase + config.limits.heapBytes ≤ 2 ^ 31

/-- The entities and the heap that fit end below `2^31`. -/
lemma space_end {reserve heap edicts stride : Nat} (pos : 0 < stride) (some : 1 ≤ edicts)
    (fit : edicts ≤ (0x80000000 - reserve - heap - 16) / stride) :
    alignUp (reserve + edicts * stride) 16 + heap ≤ 2 ^ 31 := by
  have room := (Nat.le_div_iff_mul_le pos).mp fit
  have least : stride ≤ edicts * stride := Nat.le_mul_of_pos_left stride some
  have up := alignUp_lt (reserve + edicts * stride) (show 0 < 16 by omega)
  omega

/-- A plan that is found has passed the checks of `planSpace`. -/
lemma planned {program : Program} {config : VmConfig} {sp : Space}
    (e : planSpace program config = .ok sp) : Planned program config sp := by
  unfold planSpace at e
  dsimp only at e
  split at e
  next fieldBytes mul =>
    split at e
    next wanted add =>
      split at e
      next strideShift power =>
        split at e
        next => cases e
        next edicts =>
          split at e
          next => cases e
          next =>
            split at e
            next => cases e
            next =>
              split at e
              next => cases e
              next =>
                split at e
                next => cases e
                next =>
                  cases e
                  obtain ⟨-, rfl⟩ := checkedMul_eq_some.mp mul
                  obtain ⟨-, rfl⟩ := checkedAdd_eq_some.mp add
                  have wide := le_of_nextPowerOfTwo power
                  have edicts := Nat.le_of_not_lt edicts
                  exact
                    { gbase := rfl
                      lsBase := rfl
                      lsWords := rfl
                      sLen := rfl
                      s_le := Nat.le_trans (le_alignUp _ (by omega)) (Nat.le_add_right _ _)
                      fieldBytes := Nat.mul_comm _ _
                      fields_le := by dsimp only; omega
                      edicts := edicts
                      e_end := le_alignUp _ (by omega)
                      h_end := space_end (Nat.two_pow_pos _) edicts (Nat.min_le_right _ _) }
      next => cases e
    next => cases e
  next => cases e

/-- The memory of a plan is laid out. -/
lemma layout_initialMemory {program : Program} {config : VmConfig} {sp : Space}
    (p : Planned program config sp) : (initialMemory program config sp).Layout := by
  unfold initialMemory Memory.initWorld
  dsimp only
  refine Memory.Layout.of_shape ?_ (Memory.shape_modifySlot _ _ _)
  refine Memory.Layout.of_shape ?_ (Memory.shape_clearEntity _ _)
  refine Memory.Layout.growTo ?_ (Nat.le_refl 0) p.edicts
  have heap : config.limits.heapBytes / heapAlign * heapAlign ≤ config.limits.heapBytes :=
    Nat.div_mul_le_self _ _
  have h_end := p.h_end
  exact
    { s_le := p.s_le
      e_size := (Nat.zero_mul _).symm
      fields_le := p.fields_le
      slots_le := Nat.zero_le _
      base_pos := by
        have := p.s_le
        have := p.sLen
        simp only
        omega
      slots_le_max := Nat.zero_le _
      e_end := p.e_end
      heap := Heap.bounded_new _
      h_end := by simp only [Heap.new]; omega }

/-- The main progs, with the shared globals of these names. -/
def mainProgs (program : Program) (builtins : Builtins) (gbase : Nat) (shared : List (List Byte)) :
    ProgsState :=
  (ProgsState.new program gbase (bind program builtins)
    (stateHandles program gbase (mainFields program))).share shared

/-- What `buildCore` makes of a program. -/
structure Built (program : Program) (builtins : Builtins) (config : VmConfig) (sp : Space)
    (core : Core) : Prop where
  planned : Planned program config sp
  shape : core.mem.shape = (initialMemory program config sp).shape
  words : core.mem.s = (fixGlobals (initialMemory program config sp) program sp.gbase 0).s
  fields : core.fields = mainFields program
  progs : core.progs = [mainProgs program builtins sp.gbase core.shared]
  frames : core.frames = []
  x : core.x = .idle
  nesting : core.nesting = 0
  entryDepth : core.entryDepth = 0
  threads : core.threads = []
  abortRet : core.abortRet = none
  config : core.config = config

/-- What is built follows a plan. -/
lemma built {program : Program} {builtins : Builtins} {config : VmConfig}
    (e : buildCore program builtins config = .ok core) :
    ∃ sp, Built program builtins config sp core := by
  unfold buildCore at e
  cases plan : planSpace program config with
  | error kind =>
    rw [plan] at e
    cases e
  | ok sp =>
    rw [plan] at e
    cases e
    refine ⟨sp, planned plan, ?_, s_applySpawnDefaults _ _, rfl, rfl, rfl, rfl, rfl, rfl, rfl, rfl, rfl⟩
    rw [shape_applySpawnDefaults, mem_registerShared, shape_fixGlobals]

/-- The fields of the main progs take the words its file says. -/
lemma words_mainFields (program : Program) :
    (mainFields program).words = program.entityFields := by
  have pushed (l : List Def) (t : FieldTable) :
      (l.foldl (fun t d => t.push (program.stringAt d.name) d.ty d.ofs) t).words = t.words := by
    induction l generalizing t with
    | nil => rfl
    | cons d l ih => exact ih _
  exact pushed _ _

/-- `build_core` lays memory out. -/
lemma layout_buildCore {program : Program} {builtins : Builtins} {config : VmConfig}
    (e : buildCore program builtins config = .ok core) : core.Layout := by
  obtain ⟨sp, b⟩ := built e
  have layout := (layout_initialMemory b.planned).of_shape b.shape
  have shift : core.mem.strideShift = sp.strideShift := congrArg Memory.Shape.strideShift b.shape
  refine ⟨layout, ?_⟩
  have := b.planned.fields_le
  rw [b.fields, words_mainFields, Memory.stride, shift, ← b.planned.fieldBytes]
  exact this

/-! ## Host operations -/

/-- A heap with the same size and limit keeps the shape. -/
lemma shape_withHeap {heap : Option Heap} (e : ∀ h, heap = some h →
    h.data.size = core.mem.heap.data.size ∧ h.max = core.mem.heap.max) :
    (core.withHeap heap).mem.shape = core.mem.shape := by
  cases heap with
  | none => rfl
  | some h =>
    obtain ⟨size, max⟩ := e h rfl
    simp only [withHeap, Option.getD_some, Memory.shape, size, max]

/-- A heap that is bounded, with the same limit, keeps the layout. -/
lemma Layout.withHeap (l : core.Layout) {heap : Option Heap} (e : ∀ h, heap = some h →
    h.Bounded ∧ h.max = core.mem.heap.max) : (core.withHeap heap).Layout := by
  cases heap with
  | none => exact l
  | some h =>
    obtain ⟨bounded, max⟩ := e h rfl
    refine ⟨{ l.mem with heap := bounded, h_end := ?_ }, l.words_le⟩
    have := l.mem.h_end
    simp only [Core.withHeap, Option.getD_some, max]
    exact this

/-- A write to a temp string keeps the memory. -/
@[simp] lemma shape_writeTemp (core : Core) (slot start : Nat) (bytes : List Byte) :
    (core.writeTemp slot start bytes).mem = core.mem := by
  unfold writeTemp
  split <;> rfl

/-- A write to a temp string keeps the fields. -/
@[simp] lemma fields_writeTemp (core : Core) (slot start : Nat) (bytes : List Byte) :
    (core.writeTemp slot start bytes).fields = core.fields := by
  unfold writeTemp
  split <;> rfl

/-- The spawn defaults keep the table of fields. -/
@[simp] lemma fields_applySpawnDefaults (core : Core) (e : Nat) :
    (core.applySpawnDefaults e).fields = core.fields := rfl

/-- A suspension changes nothing, or adds one thread within the limits. -/
lemma suspend_snd (core : Core) (F : FloatOps) (delay : Word) (resume : Word × Word × Word) :
    (core.suspend F delay resume).2 = core ∨ ∃ thread, core.snapshot (F.add core.qcTime delay) resume
      = some thread ∧ core.threads.length < core.config.limits.threads ∧
      thread.data.length + threadBytes core.threads ≤ core.config.limits.threadBytes ∧
      (core.suspend F delay resume).2 = { core with threads := core.threads ++ [thread] } := by
  unfold suspend
  split
  next => exact .inl rfl
  next free =>
    split
    next => exact .inl rfl
    next thread captured =>
      split
      next => exact .inl rfl
      next fits => exact .inr ⟨thread, captured, by omega, by omega, rfl⟩

/-- Whatever a host or a builtin does keeps the layout. -/
theorem Layout.host {F : FloatOps} {builtins : Builtins} (l : core.Layout) (op : HostOp) :
    (core.host F builtins op).Layout := by
  cases op with
  | setGlobal off v => exact l.of_shape rfl rfl
  | setField e word v =>
    simp only [Core.host]
    split
    next => exact l.of_shape rfl rfl
    next => exact l
  | writeMem p bytes =>
    simp only [Core.host]
    split
    next written => exact l.of_shape (Memory.shape_write written) rfl
    next => exact l
  | writeHeap off bytes =>
    refine l.of_shape (shape_withHeap fun h e => ?_) rfl
    cases e
    exact ⟨rfl, rfl⟩
  | writeTemp slot start bytes =>
    exact l.of_shape (by simp only [Core.host, shape_writeTemp]) (by simp only [Core.host, fields_writeTemp])
  | spawn now =>
    simp only [Core.host]
    split
    next e mem spawned =>
      obtain ⟨layout, shift⟩ := l.mem.spawn spawned
      exact (l.withMem layout shift).of_shape (shape_applySpawnDefaults _ _) rfl
    next => exact l
  | claim e =>
    simp only [Core.host]
    split
    next mem claimed =>
      obtain ⟨layout, shift⟩ := l.mem.claim claimed
      exact (l.withMem layout shift).of_shape (shape_applySpawnDefaults _ _) rfl
    next => exact l
  | remove e now instant =>
    simp only [Core.host]
    split
    next removed => exact l.of_shape (Memory.shape_remove removed) rfl
    next => exact l.of_shape (by rw [mem_warn]) (by rw [fields_warn])
  | setGuarded e on => exact l.of_shape (Memory.shape_modifySlot _ _ _) rfl
  | ensureField name ty words => exact l.ensureField name ty words
  | heapAlloc n =>
    refine l.withHeap fun h e => ?_
    cases e
    exact Heap.alloc_bounded l.mem.heap n
  | heapFree off => exact l.withHeap fun h e => Heap.release_bounded l.mem.heap e
  | heapRealloc old n =>
    refine l.withHeap fun h e => ?_
    cases e
    exact Heap.realloc_bounded l.mem.heap old n
  | temp text => exact l.of_shape rfl rfl
  | intern text => exact l.of_shape rfl rfl
  | pin r => exact l.of_shape rfl rfl
  | unpin r => exact l.of_shape rfl rfl
  | warn msg => exact l.of_shape (by simp only [Core.host, mem_warn]) (by simp only [Core.host, fields_warn])
  | rand =>
    simp only [Core.host]
    generalize core.rng.rand15.2 = rng
    exact l.of_shape rfl rfl
  | suspend delay resume =>
    simp only [Core.host]
    rcases core.suspend_snd F delay resume with same | ⟨thread, -, -, -, next⟩
    · rw [same]
      exact l
    · rw [next]
      exact l.of_shape rfl rfl
  | setTrace on => exact l.of_shape rfl rfl
  | setDeveloper on => exact l.of_shape rfl rfl
  | collectGarbage =>
    simp only [Core.host]
    split
    next => exact l
    next => exact l.of_shape rfl rfl
  | addProgs loaded reserved => exact l.addProgs

end Core

end Qcvm

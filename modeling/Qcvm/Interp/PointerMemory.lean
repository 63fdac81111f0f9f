import Mathlib.Data.Set.Lattice
import Mathlib.Order.CompletePartialOrder
import Qcvm.Interp.Access
import Qcvm.Vm.Boot
import Qcvm.Vm.Partition
import Qcvm.Vm.StringTable

/-!
# Pointer memory

A pointer read or write lands in a region, in a temp string or nowhere. The bytes it may land on are
`Cell`s; a write changes the cells it lands on and a read depends on its own, so what a write stores
a read gets back, unless the two land on different cells: address 0 is read from region S, while a
write to it falls back to the temp string of the base.
-/

namespace Qcvm

open Lib

/-- A byte that a pointer can land on. -/
inductive Cell where
  | s (i : Nat)
  | e (i : Nat)
  | h (i : Nat)
  | temp (slot i : Nat)
  deriving DecidableEq

/-- The cells of `n` bytes at a location. -/
def Loc.cells (n : Nat) : Loc → Set Cell
  | .s o => { c | ∃ i, o ≤ i ∧ i < o + n ∧ c = .s i }
  | .e o _ => { c | ∃ i, o ≤ i ∧ i < o + n ∧ c = .e i }
  | .h o => { c | ∃ i, o ≤ i ∧ i < o + n ∧ c = .h i }

/-- The cells of `n` bytes of a temp string. -/
def tempCells (slot start n : Nat) : Set Cell :=
  { c | ∃ i, start ≤ i ∧ i < start + n ∧ c = .temp slot i }

namespace Core

variable (core : Core)

/-- The byte in a cell; a temp string is zero past its end. -/
def cell : Cell → Byte
  | .s i => core.mem.s.get i
  | .e i => core.mem.e.get i
  | .h i => core.mem.heap.data.get i
  | .temp slot i => ((core.strings.tempRaw slot).map (·.get i)).getD 0

/-- The cells an access of `n` bytes that no region takes lands on. -/
def slowCells (n : Nat) (base offset : Word) : Set Cell :=
  if base + offset = sentinelPointer then ∅
  else
    match classify base with
    | .temp slot => tempCells slot offset.toNat n
    | _ => ∅

/-- The cells a read lands on. -/
def readCells (n : Nat) (base offset : Word) : Set Cell :=
  match core.mem.locate (base + offset) n with
  | some loc => loc.cells n
  | none => slowCells n base offset

/-- The cells a write lands on. -/
def writeCells (n : Nat) (base offset : Word) : Set Cell :=
  match core.mem.checkWrite (base + offset) n with
  | .ok loc => loc.cells n
  | .error _ => slowCells n base offset

/-- The write is skipped: it would land in a protected entity. -/
def Skips (n : Nat) (base offset : Word) : Prop :=
  ∃ e, core.mem.checkWrite (base + offset) n = .error (.guarded e)

/-- What a pointer write stores, a read gets back, and a read that lands elsewhere is as before; a
write that fails, that is skipped or that goes to the sentinel changes no memory and no string. -/
def Remembers (base offset : Word) (bytes : List Byte) : Prop :=
  let after := (core.ptrWrite base offset bytes).2
  let n := bytes.length
  ((core.ptrWrite base offset bytes).1 = .ok () ∧ base + offset ≠ sentinelPointer ∧
      ¬ core.Skips n base offset →
    after.ptrRead n base offset = .ok bytes ∧
      ∀ n' base' offset',
        Disjoint (core.readCells n' base' offset') (core.writeCells n base offset) →
        after.ptrRead n' base' offset' = core.ptrRead n' base' offset') ∧
  ((core.ptrWrite base offset bytes).1 ≠ .ok () ∨ base + offset = sentinelPointer ∨
      core.Skips n base offset →
    after.mem = core.mem ∧ after.strings = core.strings)

/-- The pointer is null, its base is a temp string that already reaches so far, and the bytes
written are not those at the start of region S. -/
def NullAlias (base offset : Word) (bytes : List Byte) : Prop :=
  base + offset = 0 ∧
    (∃ slot data, classify base = .temp slot ∧ core.strings.tempRaw slot = some data ∧
      offset.toNat + bytes.length ≤ data.size) ∧
    ∃ other, core.mem.read 0 bytes.length = some other ∧ other ≠ bytes

end Core

/-! ## What an access finds -/

namespace Memory

variable {m m' : Memory} {p : Word} {n : Nat} {loc : Loc}

/-- An access that finds a location lies in its region. -/
lemma Regions.locate_fits (r : m.Regions) (found : m.locate p n = some loc) :
    (m.region loc).2 + n ≤ (m.region loc).1.size := by
  unfold locate at found
  split at found
  next inside =>
    cases found
    exact inside
  next =>
    rcases Option.or_eq_some_iff.mp found with entity | ⟨-, heap⟩
    · unfold locateEntity at entity
      dsimp only at entity
      split at entity
      next => cases entity
      next =>
        split at entity
        next ok =>
          cases entity
          have block := r.block_le (r.numEdicts ▸ ok.1)
          have division := Nat.div_add_mod' (p.toNat - m.eBase) m.stride
          have fields := r.fields_le
          have within := ok.2
          show p.toNat - m.eBase + n ≤ m.e.size
          omega
        next => cases entity
    · unfold locateHeap at heap
      split at heap
      next ok =>
        cases heap
        exact ok.2
      next => cases heap

/-- A read takes the bytes of the range it finds. -/
lemma Regions.read_eq (r : m.Regions) : m.read p n =
    (m.locate p n).map fun loc => (m.region loc).1.slice (m.region loc).2 n := by
  unfold read
  cases found : m.locate p n with
  | none => rfl
  | some loc => exact if_pos (r.locate_fits found)

/-- Where an access lands depends on the shape only. -/
lemma locate_of_shape (e : m'.shape = m.shape) : m'.locate p n = m.locate p n := by
  have stride := stride_of_shape e
  simp only [shape, Shape.mk.injEq] at e
  obtain ⟨s, -, base, -, fields, -, slots, heap, -, hBase, -, -⟩ := e
  unfold locate locateEntity locateHeap numEdicts
  rw [s, base, fields, slots, heap, hBase, stride]

/-- No region reaches the sentinel. -/
lemma Layout.locate_sentinel (l : m.Layout) : m.locate Core.sentinelPointer n = none := by
  have value : Core.sentinelPointer.toNat = 2 ^ 32 - 1 := rfl
  have s_le := l.s_le
  have e_le := l.e_le
  have h_le := l.h_le
  cases found : m.locate Core.sentinelPointer n with
  | none => rfl
  | some loc =>
    have fits := l.toRegions.locate_fits found
    unfold locate at found
    rw [value] at found
    split at found
    next => omega
    next =>
      rcases Option.or_eq_some_iff.mp found with entity | ⟨-, heap⟩
      · unfold locateEntity at entity
        dsimp only at entity
        split at entity
        next => cases entity
        next =>
          split at entity
          next =>
            cases entity
            have fits : 2 ^ 32 - 1 - m.eBase + n ≤ m.e.size := fits
            omega
          next => cases entity
      · unfold locateHeap at heap
        split at heap
        next => omega
        next => cases heap

/-- A write that is checked is made. -/
lemma Regions.write_eq (r : m.Regions) (bytes : List Byte) : m.write p bytes =
    (m.checkWrite p bytes.length).map fun loc =>
      m.setRegion loc ((m.region loc).1.write (m.region loc).2 bytes) := by
  unfold write
  cases checked : m.checkWrite p bytes.length with
  | error err => rfl
  | ok loc => exact if_pos (r.locate_fits (checkWrite_eq_ok.mp checked).2.1)

/-- Why a write is refused: the pointer is null, nothing is there, or the entity is protected. -/
lemma checkWrite_eq_error {err : WriteError} (e : m.checkWrite p n = .error err) :
    p = 0 ∧ err = .null ∨ m.locate p n = none ∧ err = .invalid p ∨ ∃ k, err = .guarded k := by
  unfold checkWrite at e
  split at e
  next null =>
    cases e
    exact .inl ⟨null, rfl⟩
  next =>
    cases found : m.locate p n with
    | none =>
      rw [found] at e
      cases e
      exact .inr (.inl ⟨rfl, rfl⟩)
    | some loc =>
      rw [found] at e
      cases loc with
      | s o => cases e
      | h o => cases e
      | e o k =>
        dsimp only at e
        split at e
        next =>
          cases e
          exact .inr (.inr ⟨k, rfl⟩)
        next => cases e

end Memory

/-! ## What an access leaves alone -/

namespace Core

variable {core core' : Core} {base offset : Word} {n : Nat}

/-- The cell of a temp string is its byte, or zero. -/
lemma cell_temp {slot i : Nat} :
    core.cell (.temp slot i) = ((core.strings.tempRaw slot).map (·.get i)).getD 0 := rfl

/-- The cores differ in some cells at most. -/
structure Confined (core core' : Core) (W : Set Cell) : Prop where
  shape : core'.mem.shape = core.mem.shape
  statics : core'.strings.statics = core.strings.statics
  live : ∀ slot, (core'.strings.tempRaw slot).isSome = (core.strings.tempRaw slot).isSome
  cells : ∀ c, c ∉ W → core'.cell c = core.cell c

/-- A read depends on the cells it lands on. -/
lemma Confined.ptrRead {W : Set Cell} (f : core.Confined core' W) (r : core.mem.Regions)
    (apart : Disjoint (core.readCells n base offset) W) :
    core'.ptrRead n base offset = core.ptrRead n base offset := by
  have r' : core'.mem.Regions := r.of_shape f.shape
  have same (c : Cell) (mem : c ∈ core.readCells n base offset) : core'.cell c = core.cell c :=
    f.cells c fun written => Set.disjoint_left.mp apart mem written
  unfold Core.ptrRead
  rw [r.read_eq, r'.read_eq, Memory.locate_of_shape f.shape]
  unfold readCells at same
  cases found : core.mem.locate (base + offset) n with
  | some loc =>
    rw [found] at same
    simp only [Option.map_some, Except.ok.injEq]
    cases loc with
    | s o => exact Arr.slice_congr fun i lo hi => same (.s i) ⟨i, lo, hi, rfl⟩
    | e o k => exact Arr.slice_congr fun i lo hi => same (.e i) ⟨i, lo, hi, rfl⟩
    | h o => exact Arr.slice_congr fun i lo hi => same (.h i) ⟨i, lo, hi, rfl⟩
  | none =>
    rw [found] at same
    dsimp only [Option.map_none] at same ⊢
    unfold slowCells at same
    unfold ptrReadSlow Strings.staticStr
    rw [f.statics]
    split
    next => rfl
    next usual =>
      rw [if_neg usual] at same
      cases kind : classify base with
      | linear a => rfl
      | static i => rfl
      | temp slot =>
        rw [kind] at same
        dsimp only at same ⊢
        have live := f.live slot
        cases before : core.strings.tempRaw slot with
        | none =>
          rw [before, Option.isSome_none, Option.isSome_eq_false_iff,
            Option.isNone_iff_eq_none] at live
          rw [live]
        | some data =>
          rw [before, Option.isSome_some] at live
          obtain ⟨data', after⟩ := Option.isSome_iff_exists.mp live
          rw [after]
          refine congrArg Except.ok (Arr.slice_congr fun i lo hi => ?_)
          have byte := same (.temp slot i) ⟨i, lo, hi, rfl⟩
          rw [cell_temp, cell_temp, before, after] at byte
          exact byte

/-- Bytes written at a location. -/
def stored (core : Core) (loc : Loc) (bytes : List Byte) : Core :=
  let (data, o) := core.mem.region loc
  { core with mem := core.mem.setRegion loc (data.write o bytes) }

/-- A write to a region changes the cells it lands on. -/
lemma frame_stored (core : Core) (loc : Loc) (bytes : List Byte) :
    core.Confined (core.stored loc bytes) (loc.cells bytes.length) where
  shape := Memory.shape_setRegion_write _ _ _ _
  statics := rfl
  live _ := rfl
  cells c out := by
    have outside {o i : Nat} (not : ¬ (o ≤ i ∧ i < o + bytes.length)) :
        i < o ∨ o + bytes.length ≤ i := by
      omega
    cases loc with
    | s o =>
      cases c with
      | s i =>
        exact Arr.get_write_of_outside (outside fun inside => out ⟨i, inside.1, inside.2, rfl⟩)
      | _ => rfl
    | e o k =>
      cases c with
      | e i =>
        exact Arr.get_write_of_outside (outside fun inside => out ⟨i, inside.1, inside.2, rfl⟩)
      | _ => rfl
    | h o =>
      cases c with
      | h i =>
        exact Arr.get_write_of_outside (outside fun inside => out ⟨i, inside.1, inside.2, rfl⟩)
      | _ => rfl

/-- The temp strings once one of them is replaced. -/
lemma tempRaw_set {s : Strings} {slot : Nat} (lt : slot < s.slots.length) (data : Arr Byte)
    (other : Nat) : ({ s with slots := s.slots.set slot (some data) } : Strings).tempRaw other =
      if other = slot then some data else s.tempRaw other := by
  unfold Strings.tempRaw
  split
  next same =>
    rw [same, List.getElem?_set_self lt]
    rfl
  next ne => rw [List.getElem?_set_ne (Ne.symm ne)]

/-- What writing to a temp string leaves: the string is grown with zeros and holds the bytes. -/
structure Poked (core : Core) (slot start : Nat) (bytes : List Byte) (core' : Core) : Prop where
  mem : core'.mem = core.mem
  data : ∃ data : Arr Byte, core'.strings.tempRaw slot = some (data.write start bytes) ∧
    start + bytes.length ≤ data.size
  frame : core.Confined core' (tempCells slot start bytes.length)

/-- A temp string grown for a write has room for it. -/
lemma poked {slot start : Nat} {bytes : List Byte} {data : Arr Byte} {strings : Strings}
    (grown : core.strings.tempRawMut slot (start + bytes.length) = some (data, strings)) :
    start + bytes.length ≤ data.size ∧
      core.Poked slot start bytes { core with strings := { strings with
        slots := strings.slots.set slot (some (data.write start bytes)) } } := by
  obtain ⟨before, old, grows, fits, resized, -, rfl⟩ := Strings.tempRawMut_eq_some grown
  have lt := (List.getElem?_eq_some_iff.mp (Option.join_eq_some_iff.mp old)).1
  let written := some (data.write start bytes)
  generalize after : ({ core with strings := { { core.strings with
      slots := core.strings.slots.set slot (some data)
      bytes := core.strings.bytes + (data.size - before.size) } with
        slots := (core.strings.slots.set slot (some data)).set slot written } } : Core) = core'
  have raw (other : Nat) : core'.strings.tempRaw other =
      if other = slot then some (data.write start bytes) else core.strings.tempRaw other := by
    rw [← after, List.set_set]
    exact tempRaw_set lt _ other
  refine ⟨fits, after ▸ rfl, ⟨data, by rw [raw, if_pos rfl], fits⟩, after ▸ rfl, after ▸ rfl,
    fun other => ?_, fun c out => ?_⟩
  · rw [raw]
    split
    next same => rw [same, old, Option.isSome_some, Option.isSome_some]
    next => rfl
  · cases c with
    | temp other i =>
      rw [cell_temp, cell_temp, raw]
      split
      next same =>
        subst same
        have outside : i < start ∨ start + bytes.length ≤ i := by
          by_contra inside
          exact out ⟨i, by omega, by omega, rfl⟩
        rw [old, Option.map_some, Option.map_some, Option.getD_some, Option.getD_some,
          Arr.get_write_of_outside outside, resized]
        exact Arr.get_resize_of_le grows
      next => rfl
    | _ => rw [← after]; rfl

/-! ## Reads and writes -/

/-- The references of temp strings. -/
lemma classify_eq_temp {slot : Nat} : classify base = .temp slot ↔
    base &&& tagMask = tempTag ∧ (base &&& indexMask).toNat = slot := by
  unfold classify
  split
  next tag => simp [tag]
  next tag =>
    split
    next => simp [tag]
    next => simp [tag]

/-- A handle of a temp string lies between the tags. -/
lemma toNat_of_temp {slot : Nat} (temp : classify base = .temp slot) :
    2 ^ 31 ≤ base.toNat ∧ base.toNat < 2 ^ 31 + 2 ^ 30 := by
  obtain ⟨tag, -⟩ := classify_eq_temp.mp temp
  have index : (base &&& indexMask).toNat < 2 ^ 30 := by
    rw [BitVec.toNat_and]
    exact Nat.lt_of_le_of_lt Nat.and_le_right (by decide)
  have apart : tempTag &&& (base &&& indexMask) = 0#32 := by
    rw [BitVec.and_comm, BitVec.and_assoc, show indexMask &&& tempTag = 0#32 from rfl,
      BitVec.and_zero]
  have split : base = tempTag + (base &&& indexMask) := by
    rw [BitVec.add_eq_or_of_and_eq_zero _ _ apart, ← tag, ← BitVec.and_or_distrib_left,
      show tagMask ||| indexMask = BitVec.allOnes 32 from rfl, BitVec.and_allOnes]
  have value : tempTag.toNat = 2 ^ 31 := rfl
  have sum : base.toNat = 2 ^ 31 + (base &&& indexMask).toNat := by
    have e := congrArg BitVec.toNat split
    rw [BitVec.toNat_add, value, Nat.mod_eq_of_lt (by omega)] at e
    exact e
  omega

/-- A temp string that a null pointer reaches does not grow. -/
lemma size_of_null {slot len : Nat} {data : Arr Byte} {strings : Strings} (null : base + offset = 0)
    (temp : classify base = .temp slot)
    (grown : core.strings.tempRawMut slot (offset.toNat + len) = some (data, strings)) :
    ∃ before, core.strings.tempRaw slot = some before ∧ offset.toNat + len ≤ before.size := by
  obtain ⟨before, old, -⟩ := Strings.tempRawMut_eq_some grown
  refine ⟨before, old, ?_⟩
  by_contra short
  have bounds := toNat_of_temp temp
  have wraps : offset.toNat = 2 ^ 32 - base.toNat := by
    have e := congrArg BitVec.toNat null
    rw [BitVec.toNat_add, show (0 : Word).toNat = 0 from rfl] at e
    have := offset.isLt
    omega
  unfold Strings.tempRawMut at grown
  simp only [old, Option.bind_eq_bind, Option.bind_some, if_neg short] at grown
  rw [if_pos (by unfold maxTempGrowth; omega)] at grown
  cases grown

/-- What a write does: it goes to a region, is skipped, goes to the sentinel or to a temp string, or
fails. -/
lemma ptrWrite_cases (core : Core) (r : core.mem.Regions) (base offset : Word) (bytes : List Byte) :
    (∃ loc, core.mem.checkWrite (base + offset) bytes.length = .ok loc ∧
      core.ptrWrite base offset bytes = (.ok (), core.stored loc bytes)) ∨
    (core.Skips bytes.length base offset ∧ ∃ kind,
      core.ptrWrite base offset bytes = (.ok (), core.warn kind)) ∨
    ∃ err, core.mem.checkWrite (base + offset) bytes.length = .error err ∧
      (∀ k, err ≠ .guarded k) ∧
      (base + offset = sentinelPointer ∧ core.ptrWrite base offset bytes = (.ok (), core) ∨
        base + offset ≠ sentinelPointer ∧
          ((∃ slot data strings core', classify base = .temp slot ∧
              core.strings.tempRawMut slot (offset.toNat + bytes.length) = some (data, strings) ∧
              core.ptrWrite base offset bytes = (.ok (), core') ∧
              core.Poked slot offset.toNat bytes core') ∨
            ∃ kind, core.ptrWrite base offset bytes = (.error kind, core))) := by
  have slow {err : WriteError} (other : ∀ k, err ≠ .guarded k) :
      base + offset = sentinelPointer ∧
        core.ptrWriteSlow base offset (base + offset) bytes err = (.ok (), core) ∨
      base + offset ≠ sentinelPointer ∧
        ((∃ slot data strings core', classify base = .temp slot ∧
            core.strings.tempRawMut slot (offset.toNat + bytes.length) = some (data, strings) ∧
            core.ptrWriteSlow base offset (base + offset) bytes err = (.ok (), core') ∧
            core.Poked slot offset.toNat bytes core') ∨
          ∃ kind,
            core.ptrWriteSlow base offset (base + offset) bytes err = (.error kind, core)) := by
    unfold ptrWriteSlow
    split
    next here => exact .inl ⟨here, rfl⟩
    next usual =>
      refine .inr ⟨usual, ?_⟩
      split
      next tag =>
        dsimp only
        cases grown : core.strings.tempRawMut (base &&& indexMask).toNat
            (offset.toNat + bytes.length) with
        | none => exact .inr ⟨_, rfl⟩
        | some result =>
          obtain ⟨data, strings⟩ := result
          obtain ⟨fits, written⟩ := core.poked grown
          dsimp only
          rw [if_pos fits]
          exact .inl ⟨_, data, strings, _, classify_eq_temp.mpr ⟨tag, rfl⟩, grown, rfl, written⟩
      next =>
        cases err with
        | null => exact .inr ⟨_, rfl⟩
        | invalid p => exact .inr ⟨_, rfl⟩
        | guarded k => exact absurd rfl (other k)
  unfold Core.ptrWrite
  dsimp only
  rw [r.write_eq]
  cases checked : core.mem.checkWrite (base + offset) bytes.length with
  | ok loc => exact .inl ⟨loc, rfl, rfl⟩
  | error err =>
    cases err with
    | guarded k => exact .inr (.inl ⟨⟨k, checked⟩, _, rfl⟩)
    | null => exact .inr (.inr ⟨_, rfl, nofun, slow nofun⟩)
    | invalid p => exact .inr (.inr ⟨_, rfl, nofun, slow nofun⟩)

/-! ## What is stored is read back -/

/-- A warning keeps the strings. -/
lemma strings_warn (core : Core) (kind : WarningKind) :
    (core.warn kind).strings = core.strings := by
  unfold warn
  dsimp only
  split <;> rfl

/-- A read whose address no region takes reads the temp string of its base. -/
lemma ptrRead_of_temp {slot : Nat} {data : Arr Byte}
    (missed : core.mem.read (base + offset) n = none) (usual : base + offset ≠ sentinelPointer)
    (temp : classify base = .temp slot)
    (raw : core.strings.tempRaw slot = some data) :
    core.ptrRead n base offset = .ok (data.slice offset.toNat n) := by
  unfold Core.ptrRead ptrReadSlow
  rw [missed]
  dsimp only
  rw [if_neg usual, temp]
  dsimp only
  rw [raw]

/-- Bytes stored in a region are read back from it. -/
lemma ptrRead_stored {loc : Loc} {bytes : List Byte} (r : core.mem.Regions)
    (found : core.mem.locate (base + offset) bytes.length = some loc) :
    (core.stored loc bytes).ptrRead bytes.length base offset = .ok bytes := by
  have shape := (core.frame_stored loc bytes).shape
  have fits := r.locate_fits found
  unfold Core.ptrRead
  rw [(r.of_shape shape).read_eq, Memory.locate_of_shape shape, found]
  refine congrArg Except.ok ?_
  cases loc with
  | s o => exact Arr.slice_write fits
  | e o k => exact Arr.slice_write fits
  | h o => exact Arr.slice_write fits

/-- A pointer that is no null alias is a pointer into memory. -/
lemma remembers (l : core.mem.Layout) {bytes : List Byte}
    (usual : ¬ core.NullAlias base offset bytes) : core.Remembers base offset bytes := by
  have r := l.toRegions
  unfold Remembers
  dsimp only
  rcases core.ptrWrite_cases r base offset bytes with
    ⟨loc, checked, e⟩ | ⟨skips, kind, e⟩ | ⟨err, checked, other, ends⟩
  · have found := (Memory.checkWrite_eq_ok.mp checked).2.1
    rw [e]
    refine ⟨fun _ => ⟨ptrRead_stored r found, fun n' base' offset' apart => ?_⟩, ?_⟩
    · unfold writeCells at apart
      rw [checked] at apart
      exact (core.frame_stored loc bytes).ptrRead r apart
    · rintro (failed | sentinel | ⟨k, skipped⟩)
      · exact absurd rfl failed
      · rw [sentinel, l.locate_sentinel] at found
        cases found
      · rw [checked] at skipped
        cases skipped
  · rw [e]
    refine ⟨fun h => absurd skips h.2.2, fun _ => ⟨mem_warn _ _, strings_warn _ _⟩⟩
  · have unskipped : ¬ core.Skips bytes.length base offset := by
      rintro ⟨k, skipped⟩
      rw [checked] at skipped
      cases skipped
      exact other k rfl
    rcases ends with ⟨sentinel, e⟩ |
      ⟨away, ⟨slot, data, strings, core', temp, grown, e, poked⟩ | ⟨kind, e⟩⟩
    · rw [e]
      exact ⟨fun h => absurd sentinel h.2.1, fun _ => ⟨rfl, rfl⟩⟩
    · rw [e]
      refine ⟨fun _ => ⟨?_, fun n' base' offset' apart => ?_⟩, ?_⟩
      · obtain ⟨data', raw, fits⟩ := poked.data
        dsimp only
        cases read : core.mem.read (base + offset) bytes.length with
        | none =>
          rw [← poked.mem] at read
          rw [ptrRead_of_temp read away temp raw, Arr.slice_write fits]
        | some found =>
          -- Only a null pointer can be read where it cannot be written.
          have null : base + offset = 0 := by
            rcases Memory.checkWrite_eq_error checked with ⟨null, -⟩ | ⟨missing, -⟩ | ⟨k, guarded⟩
            · exact null
            · rw [r.read_eq, missing] at read
              cases read
            · exact absurd guarded (other k)
          have same : found = bytes := by
            by_contra ne
            obtain ⟨before, old, room⟩ := size_of_null null temp grown
            exact usual ⟨null, ⟨slot, before, temp, old, room⟩, found, null ▸ read, ne⟩
          unfold Core.ptrRead
          rw [poked.mem, read, same]
      · unfold writeCells slowCells at apart
        rw [checked] at apart
        dsimp only at apart
        rw [if_neg away, temp] at apart
        exact poked.frame.ptrRead r apart
      · rintro (failed | sentinel | skipped)
        · exact absurd rfl failed
        · exact absurd sentinel away
        · exact absurd skipped unskipped
    · rw [e]
      refine ⟨fun h => ?_, fun _ => ⟨rfl, rfl⟩⟩
      have done := h.1
      cases done

/-- A null alias is written and not read back. -/
lemma not_remembers {bytes : List Byte} (aliased : core.NullAlias base offset bytes) :
    ¬ core.Remembers base offset bytes := by
  obtain ⟨null, ⟨slot, data, temp, raw, room⟩, found, read, ne⟩ := aliased
  have refused : core.mem.checkWrite (base + offset) bytes.length = .error .null := by
    rw [null]
    rfl
  have grown : core.strings.tempRawMut slot (offset.toNat + bytes.length) =
      some (data, core.strings) := by
    unfold Strings.tempRawMut
    simp only [raw, Option.bind_eq_bind, Option.bind_some, if_pos room, Option.pure_def]
  have away : base + offset ≠ sentinelPointer := by
    rw [null]
    decide
  obtain ⟨tag, index⟩ := classify_eq_temp.mp temp
  have written : core.ptrWrite base offset bytes = (.ok (), { core with strings :=
      { core.strings with
        slots := core.strings.slots.set slot (some (data.write offset.toNat bytes)) } }) := by
    unfold Core.ptrWrite Memory.write ptrWriteSlow
    dsimp only
    rw [refused]
    show (if _ then _ else _) = _
    rw [if_neg away, if_pos tag, index, grown]
    exact if_pos room
  have unskipped : ¬ core.Skips bytes.length base offset := by
    rintro ⟨k, skipped⟩
    rw [refused] at skipped
    cases skipped
  intro kept
  unfold Remembers at kept
  rw [written] at kept
  have back := (kept.1 ⟨rfl, away, unskipped⟩).1
  unfold Core.ptrRead at back
  dsimp only at back
  rw [null, read] at back
  cases back
  exact ne rfl

/-- **Pointer memory is a memory, but for null pointers into long temp strings.** -/
theorem pointer_memory (l : core.mem.Layout) (base offset : Word) (bytes : List Byte) :
    core.Remembers base offset bytes ↔ ¬ core.NullAlias base offset bytes :=
  ⟨fun kept aliased => not_remembers aliased kept, remembers l⟩

/-- In a VM for the smallest program two bytes are written and read back. -/
theorem pointer_memory_minimal : ∃ core : Core,
    core.Remembers 8 0 [1, 2] ↔ ¬ core.NullAlias 8 0 [1, 2] := by
  obtain ⟨vm, boot⟩ := Option.isSome_iff_exists.mp
    (show (Asm.minimal.boot .none .menu).isSome = true by decide +kernel)
  exact ⟨vm.core, pointer_memory (layout_buildCore (built_of_boot boot)).mem 8 0 [1, 2]⟩

/-! ## A long temp string -/

/-- The spawn defaults keep the strings. -/
lemma strings_applySpawnDefaults (core : Core) (e : Nat) :
    (core.applySpawnDefaults e).strings = core.strings := rfl

/-- Registering shared globals keeps the strings. -/
lemma strings_registerShared (core : Core) (pr : Nat) :
    (core.registerShared pr).strings = core.strings := by
  unfold registerShared
  split <;> rfl

/-- A new core has a new table of strings. -/
lemma strings_buildCore {program : Program} {builtins : Builtins} {config : VmConfig}
    (build : buildCore program builtins config = .ok core) :
    core.strings = .new config.limits.tempStrings config.limits.tempStringBytes := by
  unfold buildCore at build
  cases plan : planSpace program config with
  | error kind =>
    rw [plan] at build
    cases build
  | ok sp =>
    rw [plan] at build
    cases build
    rw [strings_applySpawnDefaults, strings_registerShared]

/-- A new table stores a string that the limit has room for. -/
lemma stores_new {maxSlots maxBytes : Nat} {text : List Byte}
    (room : Strings.paddedSize text.length ≤ maxBytes) :
    ∃ slot data, ((Strings.new maxSlots maxBytes).alloc text).2.tempRaw slot = some data ∧
      data.size = Strings.paddedSize text.length ∧ slot < 2 ^ 30 := by
  have exact' := Strings.exact_new maxSlots maxBytes
  have notFull : ¬ (Strings.new maxSlots maxBytes).Full := by
    rintro ⟨full, -⟩
    have live : (Strings.new maxSlots maxBytes).live = 0 := rfl
    have capacity := exact'.capacity_pos
    omega
  generalize made : Strings.new maxSlots maxBytes = s at *
  have bytes : s.bytes = 0 := made ▸ rfl
  have limit : s.maxBytes = maxBytes := made ▸ rfl
  have fits : s.bytes + ((Arr.ofList text).resize (Strings.paddedSize text.length) 0).size ≤
      s.maxBytes := by
    rw [Arr.size_resize]
    omega
  obtain ⟨slot, n, done, -, lt, lo, hi, free, -⟩ := exact'.allocRaw fits notFull
  rcases Strings.alloc_eq s text with e | ⟨full, -⟩
  · refine ⟨slot, (Arr.ofList text).resize (Strings.paddedSize text.length) 0, ?_,
      Arr.size_resize _ _ _, ?_⟩
    · rw [e, done, Strings.tempRaw_put free, if_pos rfl]
    · have larger := (exact'.withCapacity lo hi).capacity_lt
      exact Nat.lt_trans lt larger
  · omega

/-- The first bytes of a temp string of 2 GiB are written through null and read from region S. -/
theorem pointer_memory_null : ¬ ∀ (core : Core) (base offset : Word) (bytes : List Byte),
    core.mem.Layout → bytes.length ≤ 12 → core.Remembers base offset bytes := by
  intro claim
  have test : (Asm.minimal.boot .none { VmConfig.menu with
      limits := { VmConfig.menu.limits with tempStringBytes := 2 ^ 32 } }).any
      fun vm => vm.core.mem.read 0 4 == some [0, 0, 0, 0] := by
    decide +kernel
  obtain ⟨vm, boot, zeros⟩ := (Option.any_eq_true _ _).mp test
  have build := built_of_boot boot
  have layout := (layout_buildCore build).mem
  obtain ⟨text, length⟩ : ∃ text : List Byte, text.length = 2 ^ 31 :=
    ⟨List.replicate (2 ^ 31) 97, List.length_replicate⟩
  obtain ⟨slot, data, raw, size, small⟩ :=
    @stores_new VmConfig.menu.limits.tempStrings (2 ^ 32) text (by rw [length]; decide)
  generalize made : vm.core.host .onZero .none (.temp text) = core
  have mem : core.mem = vm.core.mem := made ▸ rfl
  have strings : core.strings = (vm.core.strings.alloc text).2 := made ▸ rfl
  rw [strings_buildCore build] at strings
  rw [length] at size
  have temp : classify (tempHandle slot) = .temp slot :=
    classify_eq_temp.mpr ((eq_tempHandle_iff small _).mp rfl)
  have kept :=
    claim core (tempHandle slot) (-tempHandle slot) [1, 2, 3, 4] (mem ▸ layout) (by decide)
  refine not_remembers ⟨BitVec.add_right_neg _, ⟨slot, data, temp, strings ▸ raw, ?_⟩,
    [0, 0, 0, 0], ?_, ?_⟩ kept
  · have bounds := toNat_of_temp temp
    have four : ([1, 2, 3, 4] : List Byte).length = 4 := rfl
    rw [BitVec.toNat_neg, size, four]
    unfold Strings.paddedSize
    omega
  · rw [mem]
    exact beq_iff_eq.mp zeros
  · decide

end Core

end Qcvm

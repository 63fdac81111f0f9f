import Qcvm.Interp.PointerMemory
import Qcvm.Lib.Store
import Qcvm.Vm.Calls

/-!
# Pointer ranges

The copy, fill and compare builtins of `stdlib/memory.rs` get a pointer with a byte offset: a linear
address or a temp buffer, which grows when it is written past its end. Their arguments are those that
`arg_u32` and `arg_i32` read; errors are raised before anything is written.
-/

namespace Qcvm

open Lib

namespace Core

variable (core : Core)

/-- `soft_error`: a warning in developer mode, else an error. -/
def softError (msg : String) : Except ErrorKind Unit × Core :=
  if core.config.developer then (.ok (), (core.warn (.builtin msg)).retRaw [0, 0, 0])
  else (.error (.builtin msg), core)

/-- `usize::try_from` of an `i32`. -/
def toUsize (n : Word) : Option Nat := if n.toInt < 0 then none else some n.toNat

/-- `linear`: `ptr + ofs` for a linear pointer. -/
def linear (p ofs : Word) : Option Word :=
  let a : Int := p.toNat + ofs.toInt
  if 0 ≤ a ∧ a < 2 ^ 32 then some (BitVec.ofInt 32 a) else none

/-- `read_range`: `n` bytes at `ptr + ofs`. -/
def readRange (ptr ofs : Word) (n : Nat) : Option (List Byte) :=
  match classify ptr with
  | .temp slot => do
    let start ← toUsize ofs
    let data ← core.strings.tempRaw slot
    if start + n ≤ data.size then some (data.slice start n) else none
  | .static _ => none
  | .linear p => do
    let addr ← linear p ofs
    if addr = 0 ∧ 1 < n then none
    else if n ≤ u32Max then core.mem.read addr n
    else none

/-- A validated destination for a write. -/
inductive Dest where
  | linear (addr : Word)
  | temp (slot start : Nat)
  deriving DecidableEq, Repr

/-- `dest`: validates a write of `n` bytes at `ptr + ofs`. -/
def dest (ptr ofs : Word) (n : Nat) : Option Dest :=
  match classify ptr with
  | .temp slot => do
    let _ ← core.strings.tempRaw slot
    let start ← toUsize ofs
    if start + n ≤ maxTempGrowth then some (.temp slot start) else none
  | .static _ => none
  | .linear p => do
    let addr ← linear p ofs
    if n ≤ u32Max then
      match core.mem.checkWrite addr n with
      | .ok _ => some (.linear addr)
      | .error (.guarded _) => some (.linear addr)
      | .error _ => none
    else none

/-- `write_dest`: writes to a validated destination; a protected entity is skipped with a warning. -/
def writeDest (d : Dest) (bytes : List Byte) : Bool × Core :=
  match d with
  | .linear addr =>
    match core.mem.write addr bytes with
    | .ok mem => (true, { core with mem := mem })
    | .error (.guarded e) => (true, core.warn (.readOnlyEntity (BitVec.ofNat 32 e)))
    | .error _ => (false, core)
  | .temp slot start =>
    match core.strings.tempRawMut slot (start + bytes.length) with
    | none => (false, core)
    | some (data, strings) =>
      if start + bytes.length ≤ data.size then
        (true, { core with strings := { strings with
          slots := strings.slots.set slot (some (data.write start bytes)) } })
      else (false, { core with strings := strings })

/-- `{:#x}`. -/
def hexText (w : Word) : String := "0x" ++ String.ofList (Nat.toDigits 16 w.toNat)

/-- `memcpy`. -/
def memcpy (dst src size sofs dofs : Word) : Except ErrorKind Unit × Core :=
  let noDest := core.softError s!"memcpy: invalid dest ({hexText dst}+{hexText dofs})"
  match toUsize size with
  | none => core.softError s!"memcpy: invalid size {hexText size}"
  | some n =>
    if n = 0 then (.ok (), core)
    else
      match core.dest dst dofs n with
      | none => noDest
      | some d =>
        match core.readRange src sofs n with
        | none => core.softError s!"memcpy: invalid source ({hexText src}+{hexText sofs})"
        | some bytes =>
          match core.writeDest d bytes with
          | (true, core) => (.ok (), core)
          | (false, core) =>
            core.softError s!"memcpy: invalid dest ({hexText dst}+{hexText dofs})"

/-- `memfill8`. -/
def memfill8 (dst value size dofs : Word) : Except ErrorKind Unit × Core :=
  match (toUsize size).bind fun n => (core.dest dst dofs n).map fun d => (d, n) with
  | none => core.softError "memfill8: invalid dest"
  | some (d, n) =>
    match core.writeDest d (List.replicate n (value.setWidth 8)) with
    | (true, core) => (.ok (), core)
    | (false, core) => core.softError "memfill8: invalid dest"

/-- The difference of the first bytes that differ, or 0. -/
def firstDifference : List Byte → List Byte → Int
  | a :: x, b :: y => if a = b then firstDifference x y else (a.toNat : Int) - b.toNat
  | _, _ => 0

/-- `memcmp`. -/
def memcmp (a b size aofs bofs : Word) : Except ErrorKind Unit × Core :=
  let core := core.retRaw [0, 0, 0]
  match toUsize size with
  | none => core.softError "memcmp: invalid size"
  | some n =>
    if n = 0 then (.ok (), core)
    else
      match core.readRange a aofs n with
      | none => core.softError "memcmp: invalid first pointer"
      | some x =>
        match core.readRange b bofs n with
        | none => core.softError "memcmp: invalid second pointer"
        | some y => (.ok (), core.retRaw [BitVec.ofInt 32 (firstDifference x y), 0, 0])

/-- `word_address`: `ptr + ofs * 4`; an offset that is no integer and a misaligned result only warn. -/
def wordAddress (F : FloatOps) (name : String) (p ofs : Word) : Option Word × Core :=
  let core :=
    if F.ne ofs (F.ofI32 (F.f2i ofs)) then core.warn (.builtin s!"{name}: non-integer offset") else core
  let addr := F.d2i64 (F.addD (F.ofI64D (p.signExtend 64)) (F.mulD (F.widen ofs) 0x4010000000000000))
  if 0 ≤ addr.toInt ∧ addr.toInt < 2 ^ 32 then
    let addr := addr.setWidth 32
    (some addr,
      if addr &&& 3 ≠ 0 then
        core.warn (.builtin s!"{name}: misaligned pointer ({hexText addr})")
      else core)
  else (none, core)

/-- `memgetval`. -/
def memgetval (F : FloatOps) (p ofs : Word) : Except ErrorKind Unit × Core :=
  match core.wordAddress F "memgetval" p ofs with
  | (none, core) => (.error (.badPointerRead p), core)
  | (some addr, core) =>
    match core.mem.readU32 addr with
    | some v => (.ok (), core.retRaw [v, 0, 0])
    | none => (.error (.badPointerRead addr), core)

/-- `memsetval`. -/
def memsetval (F : FloatOps) (p ofs value : Word) : Except ErrorKind Unit × Core :=
  match core.wordAddress F "memsetval" p ofs with
  | (none, core) => (.error (.badPointerWrite p), core)
  | (some addr, core) =>
    match core.mem.writeU32 addr value with
    | .ok mem => (.ok (), { core with mem := mem })
    | .error (.guarded e) => (.ok (), core.warn (.readOnlyEntity (BitVec.ofNat 32 e)))
    | .error .null => (.error .nullPointerWrite, core)
    | .error (.invalid _) => (.error (.badPointerWrite addr), core)

end Core

/-! ## One memory -/

/-- The cells of `n` bytes at a location, in order. -/
def Loc.block (n : Nat) : Loc → List Cell
  | .s o => (List.range n).map fun i => .s (o + i)
  | .e o _ => (List.range n).map fun i => .e (o + i)
  | .h o => (List.range n).map fun i => .h (o + i)

/-- The cells of `n` bytes of a temp buffer, in order. -/
def tempBlock (slot start n : Nat) : List Cell := (List.range n).map fun i => .temp slot (start + i)

namespace Core

variable (core : Core)

/-- The block of `n` bytes that `ptr + ofs` names. -/
def block (ptr ofs : Word) (n : Nat) : Option (List Cell) :=
  match classify ptr with
  | .temp slot => do
    let start ← toUsize ofs
    let _ ← core.strings.tempRaw slot
    return tempBlock slot start n
  | .static _ => none
  | .linear p => do
    let addr ← linear p ofs
    (core.mem.locate addr n).map (·.block n)

/-- `n` bytes can be read at `ptr + ofs`: in a temp buffer that is long enough, or in a region, but not
from the null pointer on. -/
def Readable (ptr ofs : Word) (n : Nat) : Prop :=
  (∃ slot start data, classify ptr = .temp slot ∧ toUsize ofs = some start ∧
    core.strings.tempRaw slot = some data ∧ start + n ≤ data.size) ∨
  ∃ p addr, classify ptr = .linear p ∧ linear p ofs = some addr ∧ (addr = 0 → n ≤ 1) ∧
    (core.mem.locate addr n).isSome

/-- `n` bytes can be written at `ptr + ofs`: to a temp buffer, as far as 1 MiB at most, even in a longer one,
and past its end only if it may grow; or to a region, but not to the null pointer. -/
def Writable (ptr ofs : Word) (n : Nat) : Prop :=
  (∃ slot start data, classify ptr = .temp slot ∧ toUsize ofs = some start ∧
    start + n ≤ maxTempGrowth ∧ core.strings.tempRaw slot = some data ∧
    (start + n ≤ data.size ∨
      core.strings.bytes + ((start + n + 3) / 4 * 4 - data.size) ≤ core.strings.maxBytes)) ∨
  ∃ p addr, classify ptr = .linear p ∧ linear p ofs = some addr ∧ addr ≠ 0 ∧
    (core.mem.locate addr n).isSome

/-- The cell lies in the block of a protected entity. -/
def Protects (c : Cell) : Prop := ∃ i, c = .e i ∧ core.mem.guarded (i / core.mem.stride) = true

/-- Bytes are stored to a block outside the protected entities, and nothing else changes: the regions keep
their shape, no buffer comes or goes, and one that is written past its end grows. -/
structure Stored (core core' : Core) (cells : List Cell) (bytes : List Byte) : Prop where
  cell : core'.cell = store core.cell cells bytes
  free : ∀ c ∈ cells, ¬core.Protects c
  shape : core'.mem.shape = core.mem.shape
  slots : core'.mem.slots = core.mem.slots
  live : ∀ slot, (core'.strings.tempRaw slot).isSome = (core.strings.tempRaw slot).isSome
  grows : ∀ slot data, core.strings.tempRaw slot = some data →
    ∃ data', core'.strings.tempRaw slot = some data' ∧ data.size ≤ data'.size
  room : ∀ slot i, .temp slot i ∈ cells → ∃ data, core'.strings.tempRaw slot = some data ∧ i < data.size
  rest : core' = { core with mem := core'.mem, strings := core'.strings }

end Core

section Blocks

variable {core core' : Core} {ptr ofs p : Word} {n o slot start : Nat} {loc : Loc} {bytes : List Byte}

@[simp] lemma Loc.length_block : (loc.block n).length = n := by
  cases loc <;> simp [Loc.block]

@[simp] lemma length_tempBlock : (tempBlock slot start n).length = n := by
  simp [tempBlock]

/-- A block has each cell once. -/
lemma Loc.nodup_block : (loc.block n).Nodup := by
  have distinct (f : Nat → Cell) (inj : Function.Injective f) : ((List.range n).map f).Nodup :=
    List.nodup_range.map inj
  cases loc with
  | s o => exact distinct _ fun a b e => Nat.add_left_cancel (Cell.s.inj e)
  | e o k => exact distinct _ fun a b e => Nat.add_left_cancel (Cell.e.inj e)
  | h o => exact distinct _ fun a b e => Nat.add_left_cancel (Cell.h.inj e)

/-- A block of a temp string has each cell once. -/
lemma nodup_tempBlock : (tempBlock slot start n).Nodup :=
  List.nodup_range.map fun _ _ e => Nat.add_left_cancel (Cell.temp.inj e).2

/-- A block has the cells of its range. -/
lemma Loc.mem_block {c : Cell} : c ∈ loc.block n ↔ c ∈ loc.cells n := by
  have shifted (f : Nat → Cell) (o : Nat) : c ∈ (List.range n).map (fun i => f (o + i)) ↔
      ∃ i, o ≤ i ∧ i < o + n ∧ c = f i := by
    rw [List.mem_map]
    constructor
    · rintro ⟨i, mem, rfl⟩
      have := List.mem_range.mp mem
      exact ⟨o + i, by omega, by omega, rfl⟩
    · rintro ⟨i, low, high, rfl⟩
      refine ⟨i - o, List.mem_range.mpr (by omega), ?_⟩
      rw [Nat.add_sub_cancel' low]
  cases loc with
  | s o => exact shifted Cell.s o
  | e o k => exact shifted Cell.e o
  | h o => exact shifted Cell.h o

/-- What is read at a location is its block. -/
lemma load_block : load core.cell (loc.block n) = (core.mem.region loc).1.slice (core.mem.region loc).2 n := by
  unfold load Arr.slice
  cases loc with
  | s o => exact List.map_map
  | e o k => exact List.map_map
  | h o => exact List.map_map

/-- Reading a block of a temp string reads its bytes. -/
lemma load_tempBlock {data : Arr Byte} (raw : core.strings.tempRaw slot = some data) :
    load core.cell (tempBlock slot start n) = data.slice start n := by
  unfold load Arr.slice tempBlock
  rw [List.map_map]
  refine List.map_congr_left fun i _ => ?_
  exact (congrArg (fun d => (d.map (·.get (start + i))).getD 0) raw)

/-- A memory that agrees with another outside a block, and holds the bytes in it. -/
lemma store_eq {m m' : Cell → Byte} {cells : List Cell} (outside : ∀ c, c ∉ cells → m' c = m c)
    (inside : load m' cells = bytes) (distinct : cells.Nodup) : m' = store m cells bytes := by
  subst inside
  funext c
  by_cases mem : c ∈ cells
  · have same : load m' cells = load (store m cells (load m' cells)) cells :=
      (load_store distinct length_load).symm
    exact List.map_inj_left.mp same c mem
  · rw [store_of_not_mem mem, outside c mem]

/-- What is read through a pointer is its block. -/
lemma readRange_eq (r : core.mem.Regions) (read : core.readRange ptr ofs n = some bytes) :
    ∃ cells, core.block ptr ofs n = some cells ∧ bytes = load core.cell cells ∧ cells.length = n := by
  unfold Core.readRange at read
  unfold Core.block
  cases kind : classify ptr with
  | static i =>
    rw [kind] at read
    cases read
  | temp slot =>
    rw [kind] at read
    obtain ⟨start, offset, read⟩ := Option.bind_eq_some_iff.mp read
    obtain ⟨data, raw, read⟩ := Option.bind_eq_some_iff.mp read
    dsimp only at read ⊢
    split at read
    next =>
      cases read
      rw [offset, Option.bind_eq_bind, Option.bind_some, raw]
      exact ⟨_, rfl, (load_tempBlock raw).symm, length_tempBlock⟩
    next => cases read
  | linear p =>
    rw [kind] at read
    obtain ⟨addr, sum, read⟩ := Option.bind_eq_some_iff.mp read
    dsimp only at read ⊢
    split at read
    next => cases read
    next =>
      split at read
      next =>
        rw [r.read_eq] at read
        obtain ⟨loc, found, rfl⟩ := Option.map_eq_some_iff.mp read
        rw [sum, Option.bind_eq_bind, Option.bind_some, found]
        exact ⟨_, rfl, load_block.symm, Loc.length_block⟩
      next => cases read

/-- The entity of a location. -/
lemma locate_entity (r : core.mem.Regions) {k : Nat} (found : core.mem.locate p n = some (.e o k)) :
    ∀ i, o ≤ i → i < o + n → i / core.mem.stride = k := by
  unfold Memory.locate at found
  split at found
  next => cases found
  next =>
    rcases Option.or_eq_some_iff.mp found with entity | ⟨-, heap⟩
    · unfold Memory.locateEntity at entity
      dsimp only at entity
      split at entity
      next => cases entity
      next =>
        split at entity
        next ok =>
          cases entity
          intro i low high
          have division := Nat.div_add_mod (p.toNat - core.mem.eBase) core.mem.stride
          have fields := r.fields_le
          have within := ok.2
          have pos := Memory.stride_pos core.mem
          generalize (p.toNat - core.mem.eBase) / core.mem.stride = k at division
          refine Nat.div_eq_of_lt_le ?_ ?_
          · rw [Nat.mul_comm]
            omega
          · rw [Nat.mul_comm, Nat.mul_succ]
            omega
        next => cases entity
    · unfold Memory.locateHeap at heap
      split at heap
      next => cases heap
      next => cases heap

/-- A write that is skipped would land in a protected entity. -/
lemma checkWrite_guarded {m : Memory} {k : Nat} (checked : m.checkWrite p n = .error (.guarded k)) :
    p ≠ 0 ∧ ∃ o, m.locate p n = some (.e o k) ∧ m.guarded k = true := by
  unfold Memory.checkWrite at checked
  split at checked
  next => cases checked
  next null =>
    refine ⟨null, ?_⟩
    cases found : m.locate p n with
    | none =>
      rw [found] at checked
      cases checked
    | some loc =>
      rw [found] at checked
      cases loc with
      | s o => cases checked
      | h o => cases checked
      | e o k' =>
        dsimp only at checked
        split at checked
        next guarded =>
          cases checked
          exact ⟨o, rfl, guarded⟩
        next => cases checked

/-- A refused write would have met only protected cells. -/
lemma protects_of_guarded (r : core.mem.Regions) {k : Nat}
    (checked : core.mem.checkWrite p n = .error (.guarded k)) :
    ∃ loc, core.mem.locate p n = some loc ∧ ∀ c ∈ loc.block n, core.Protects c := by
  obtain ⟨-, o, found, guarded⟩ := checkWrite_guarded checked
  refine ⟨_, found, fun c mem => ?_⟩
  obtain ⟨i, low, high, rfl⟩ := Loc.mem_block.mp mem
  exact ⟨i, rfl, by rw [locate_entity r found i low high]; exact guarded⟩

/-- A write to a region that is checked stores its bytes. -/
lemma stored_write (r : core.mem.Regions) (checked : core.mem.checkWrite p bytes.length = .ok loc) :
    core.Stored (core.stored loc bytes) (loc.block bytes.length) bytes := by
  obtain ⟨-, found, unguarded⟩ := Memory.checkWrite_eq_ok.mp checked
  have frame := core.frame_stored loc bytes
  refine ⟨store_eq (fun c out => frame.cells c fun inside => out (Loc.mem_block.mpr inside)) ?_
    Loc.nodup_block, fun c mem => ?_, frame.shape, ?_, frame.live, fun _ data raw => ⟨data, raw, le_rfl⟩,
    fun slot i mem => ?_, rfl⟩
  · have fits := r.locate_fits found
    rw [load_block]
    cases loc with
    | s o => exact Arr.slice_write fits
    | e o k => exact Arr.slice_write fits
    | h o => exact Arr.slice_write fits
  · rintro ⟨i, rfl, guarded⟩
    cases loc with
    | e o k =>
      obtain ⟨j, low, high, e⟩ := Loc.mem_block.mp mem
      cases e
      rw [locate_entity r found i low high, unguarded o k rfl] at guarded
      cases guarded
    | s o =>
      obtain ⟨j, -, -, e⟩ := Loc.mem_block.mp mem
      cases e
    | h o =>
      obtain ⟨j, -, -, e⟩ := Loc.mem_block.mp mem
      cases e
  · cases loc with
    | s o => rfl
    | e o k => rfl
    | h o => rfl
  · cases loc with
    | s o =>
      obtain ⟨j, -, -, e⟩ := Loc.mem_block.mp mem
      cases e
    | e o k =>
      obtain ⟨j, -, -, e⟩ := Loc.mem_block.mp mem
      cases e
    | h o =>
      obtain ⟨j, -, -, e⟩ := Loc.mem_block.mp mem
      cases e

/-- A write to a temp buffer that is made long enough stores its bytes. -/
lemma stored_temp {data : Arr Byte} {strings : Strings}
    (grown : core.strings.tempRawMut slot (start + bytes.length) = some (data, strings)) :
    core.Stored { core with strings := { strings with
      slots := strings.slots.set slot (some (data.write start bytes)) } }
      (tempBlock slot start bytes.length) bytes := by
  obtain ⟨-, poked⟩ := core.poked grown
  refine ⟨store_eq (fun c out => poked.frame.cells c fun inside => out ?_) ?_ nodup_tempBlock,
    fun c mem => ?_, poked.frame.shape, rfl, poked.frame.live, fun other before raw' => ?_,
    fun other i mem => ?_, rfl⟩
  · obtain ⟨i, low, high, rfl⟩ := inside
    refine List.mem_map.mpr ⟨i - start, List.mem_range.mpr (by omega), ?_⟩
    rw [Nat.add_sub_cancel' low]
  · obtain ⟨written, raw', room⟩ := poked.data
    rw [load_tempBlock raw', Arr.slice_write room]
  · rintro ⟨i, rfl, -⟩
    obtain ⟨j, -, e⟩ := List.mem_map.mp mem
    cases e
  · obtain ⟨before', old, grows, -, -, -, rfl⟩ := Strings.tempRawMut_eq_some grown
    have lt := (List.getElem?_eq_some_iff.mp (Option.join_eq_some_iff.mp old)).1
    dsimp only
    rw [List.set_set]
    by_cases same : other = slot
    · subst same
      rw [old] at raw'
      cases raw'
      exact ⟨_, (Core.tempRaw_set lt _ other).trans (if_pos rfl), grows⟩
    · exact ⟨before, ((Core.tempRaw_set lt _ other).trans (if_neg same)).trans raw', le_rfl⟩
  · obtain ⟨j, inside, e⟩ := List.mem_map.mp mem
    cases e
    obtain ⟨written, raw', room⟩ := poked.data
    exact ⟨_, raw', Nat.lt_of_lt_of_le (Nat.add_lt_add_left (List.mem_range.mp inside) _) room⟩

/-- What a write to a validated destination does. -/
lemma dest_cases (r : core.mem.Regions) {d : Core.Dest} (valid : core.dest ptr ofs n = some d) :
    ∃ cells, core.block ptr ofs n = some cells ∧ cells.length = n ∧
      ∀ bytes : List Byte, bytes.length = n →
        (∃ e, (∀ c ∈ cells, core.Protects c) ∧
          core.writeDest d bytes = (true, core.warn (.readOnlyEntity e))) ∨
        core.writeDest d bytes = (false, core) ∨
        ∃ core', core.writeDest d bytes = (true, core') ∧ core.Stored core' cells bytes := by
  unfold Core.dest at valid
  unfold Core.block
  cases kind : classify ptr with
  | static i =>
    rw [kind] at valid
    cases valid
  | temp slot =>
    rw [kind] at valid
    obtain ⟨data, raw, valid⟩ := Option.bind_eq_some_iff.mp valid
    obtain ⟨start, offset, valid⟩ := Option.bind_eq_some_iff.mp valid
    dsimp only at valid ⊢
    split at valid
    next =>
      cases valid
      rw [offset, Option.bind_eq_bind, Option.bind_some, raw]
      refine ⟨_, rfl, length_tempBlock, fun bytes length => ?_⟩
      subst length
      unfold Core.writeDest
      dsimp only
      -- The buffer is grown before anything is written, so a refusal leaves the core as it was.
      cases grown : core.strings.tempRawMut slot (start + bytes.length) with
      | none => exact .inr (.inl rfl)
      | some result =>
        obtain ⟨data', strings⟩ := result
        dsimp only
        rw [if_pos (core.poked grown).1]
        exact .inr (.inr ⟨_, rfl, stored_temp grown⟩)
    next => cases valid
  | linear p =>
    rw [kind] at valid
    obtain ⟨addr, sum, valid⟩ := Option.bind_eq_some_iff.mp valid
    dsimp only at valid ⊢
    rw [sum, Option.bind_eq_bind, Option.bind_some]
    split at valid
    next =>
      cases checked : core.mem.checkWrite addr n with
      | ok loc =>
        rw [checked] at valid
        cases valid
        obtain ⟨-, found, unguarded⟩ := Memory.checkWrite_eq_ok.mp checked
        rw [found]
        refine ⟨_, rfl, Loc.length_block, fun bytes length => .inr (.inr ⟨core.stored loc bytes, ?_, ?_⟩)⟩
        · unfold Core.writeDest
          dsimp only
          rw [r.write_eq, length, checked]
          rfl
        · subst length
          exact stored_write r checked
      | error err =>
        rw [checked] at valid
        cases err with
        | null => cases valid
        | invalid p => cases valid
        | guarded k =>
          cases valid
          obtain ⟨loc, found, protects⟩ := protects_of_guarded r checked
          rw [found]
          refine ⟨_, rfl, Loc.length_block, fun bytes length => .inl ⟨BitVec.ofNat 32 k, protects, ?_⟩⟩
          unfold Core.writeDest
          dsimp only
          rw [r.write_eq, length, checked]
          rfl
    next => cases valid

/-- A size is at most the largest signed word. -/
lemma toUsize_small {w : Word} (e : Core.toUsize w = some n) : n < 2 ^ 31 := by
  unfold Core.toUsize at e
  split at e
  next => cases e
  next none =>
    cases e
    have signed := BitVec.toInt_eq_toNat_cond w
    split at signed
    next => omega
    next => omega

/-- A range is read exactly if it is readable. -/
lemma readRange_isSome (r : core.mem.Regions) (small : n < 2 ^ 31) :
    (core.readRange ptr ofs n).isSome ↔ core.Readable ptr ofs n := by
  unfold Core.readRange Core.Readable
  cases kind : classify ptr with
  | static i => simp
  | temp slot =>
    cases offset : Core.toUsize ofs with
    | none => simp
    | some start =>
      cases raw : core.strings.tempRaw slot with
      | none => simp [raw]
      | some data =>
        by_cases fits : start + n ≤ data.size
        · simp [raw, fits]
        · simp [raw, fits]
  | linear p =>
    cases sum : Core.linear p ofs with
    | none => simp [sum]
    | some addr =>
      have fits : n ≤ u32Max := by
        unfold u32Max
        omega
      by_cases null : addr = 0 ∧ 1 < n
      · have none : ¬(addr = 0 → n ≤ 1) := fun h => absurd (h null.1) (by omega)
        simp [sum, null]
      · have some : addr = 0 → n ≤ 1 := fun zero => by
          by_contra more
          exact null ⟨zero, by omega⟩
        dsimp only
        rw [sum, Option.bind_eq_bind, Option.bind_some, if_neg null, if_pos fits, r.read_eq,
          Option.isSome_map]
        constructor
        · intro found
          exact .inr ⟨p, addr, rfl, sum, some, found⟩
        · rintro (⟨_, _, _, other, -⟩ | ⟨_, _, same, sum', -, found⟩)
          · cases other
          · cases same
            rw [sum] at sum'
            cases sum'
            exact found

/-- A temp buffer is made as long as a write below the limit needs exactly if it is so long or may grow. -/
lemma tempRawMut_isSome {s : Strings} {data : Arr Byte} (raw : s.tempRaw slot = some data)
    (room : n ≤ maxTempGrowth) :
    (s.tempRawMut slot n).isSome ↔
      n ≤ data.size ∨ s.bytes + ((n + 3) / 4 * 4 - data.size) ≤ s.maxBytes := by
  unfold Strings.tempRawMut
  simp only [raw, Option.bind_eq_bind, Option.bind_some]
  by_cases fits : n ≤ data.size
  · simp [fits]
  · by_cases paid : s.bytes + ((n + 3) / 4 * 4 - data.size) ≤ s.maxBytes
    · simp [fits, paid, Nat.not_lt.mpr room, Nat.not_lt.mpr paid]
    · simp [fits, paid, Nat.not_lt.mpr room, Nat.lt_of_not_le paid]

/-- A write to a temp buffer grows it first, so it fails exactly if the buffer may not grow. -/
lemma writeDest_temp : (core.writeDest (.temp slot start) bytes).1 = true ↔
    (core.strings.tempRawMut slot (start + bytes.length)).isSome := by
  unfold Core.writeDest
  dsimp only
  cases grown : core.strings.tempRawMut slot (start + bytes.length) with
  | none => simp
  | some result =>
    dsimp only
    rw [if_pos (core.poked grown).1]
    exact iff_of_true rfl rfl

/-- A write is refused only where nothing is, or at the null pointer. -/
lemma checkWrite_reaches {m : Memory} : (∃ loc, m.checkWrite p n = .ok loc) ∨
    (∃ k, m.checkWrite p n = .error (.guarded k)) ↔ p ≠ 0 ∧ (m.locate p n).isSome := by
  constructor
  · rintro (⟨loc, checked⟩ | ⟨k, checked⟩)
    · obtain ⟨null, found, -⟩ := Memory.checkWrite_eq_ok.mp checked
      exact ⟨null, by rw [found]; rfl⟩
    · obtain ⟨null, o, found, -⟩ := checkWrite_guarded checked
      exact ⟨null, by rw [found]; rfl⟩
  · rintro ⟨null, found⟩
    cases checked : m.checkWrite p n with
    | ok loc => exact .inl ⟨loc, rfl⟩
    | error err =>
      rcases Memory.checkWrite_eq_error checked with ⟨zero, -⟩ | ⟨missing, -⟩ | ⟨k, rfl⟩
      · exact absurd zero null
      · rw [missing] at found
        cases found
      · exact .inr ⟨k, rfl⟩

/-- A write that is not refused is made, or left out with a warning in a protected entity. -/
lemma writeDest_linear (r : core.mem.Regions)
    (reaches : p ≠ 0 ∧ (core.mem.locate p bytes.length).isSome) :
    (core.writeDest (.linear p) bytes).1 = true := by
  unfold Core.writeDest
  dsimp only
  rw [r.write_eq]
  rcases checkWrite_reaches.mpr reaches with ⟨loc, checked⟩ | ⟨k, checked⟩
  · rw [checked]
    rfl
  · rw [checked]
    rfl

/-- What can be written through a reference to a temp buffer. -/
lemma writable_temp {data : Arr Byte} (kind : classify ptr = .temp slot)
    (offset : Core.toUsize ofs = some start) (raw : core.strings.tempRaw slot = some data) :
    core.Writable ptr ofs n ↔ start + n ≤ maxTempGrowth ∧ (start + n ≤ data.size ∨
      core.strings.bytes + ((start + n + 3) / 4 * 4 - data.size) ≤ core.strings.maxBytes) := by
  unfold Core.Writable
  rw [kind]
  constructor
  · rintro (⟨_, _, _, ⟨⟩, offset', room, raw', paid⟩ | ⟨_, _, other, -⟩)
    · rw [offset] at offset'
      cases offset'
      rw [raw] at raw'
      cases raw'
      exact ⟨room, paid⟩
    · cases other
  · rintro ⟨room, paid⟩
    exact .inl ⟨slot, start, data, rfl, offset, room, raw, paid⟩

/-- What can be written through a pointer of the address space. -/
lemma writable_linear {addr : Word} (kind : classify ptr = .linear p)
    (sum : Core.linear p ofs = some addr) :
    core.Writable ptr ofs n ↔ addr ≠ 0 ∧ (core.mem.locate addr n).isSome := by
  unfold Core.Writable
  rw [kind]
  constructor
  · rintro (⟨_, _, _, other, -⟩ | ⟨_, _, ⟨⟩, sum', reach⟩)
    · cases other
    · rw [sum] at sum'
      cases sum'
      exact reach
  · exact fun reach => .inr ⟨p, addr, rfl, sum, reach⟩

/-- A valid destination holds the bytes exactly where `n` bytes can be written. -/
lemma dest_writable (r : core.mem.Regions) (small : n < 2 ^ 31) :
    (core.Writable ptr ofs n → (core.dest ptr ofs n).isSome) ∧
      ∀ d (bytes : List Byte), core.dest ptr ofs n = some d → bytes.length = n →
        ((core.writeDest d bytes).1 = true ↔ core.Writable ptr ofs n) := by
  cases kind : classify ptr with
  | static i => simp [Core.dest, Core.Writable, kind]
  | temp slot =>
    cases offset : Core.toUsize ofs with
    | none => simp [Core.dest, Core.Writable, kind, offset]
    | some start =>
      cases raw : core.strings.tempRaw slot with
      | none => simp [Core.dest, Core.Writable, kind, raw]
      | some data =>
        rw [writable_temp kind offset raw]
        unfold Core.dest
        rw [kind]
        dsimp only
        rw [raw, Option.bind_eq_bind, Option.bind_some, offset, Option.bind_eq_bind,
          Option.bind_some]
        by_cases room : start + n ≤ maxTempGrowth
        · rw [if_pos room]
          refine ⟨fun _ => rfl, ?_⟩
          rintro d bytes ⟨⟩ rfl
          rw [writeDest_temp, tempRawMut_isSome raw room]
          exact (and_iff_right room).symm
        · rw [if_neg room]
          exact ⟨fun paid => absurd paid.1 room, fun _ _ valid => by cases valid⟩
  | linear p =>
    have fits : n ≤ u32Max := by
      unfold u32Max
      omega
    cases sum : Core.linear p ofs with
    | none => simp [Core.dest, Core.Writable, kind, sum]
    | some addr =>
      rw [writable_linear kind sum, ← checkWrite_reaches]
      unfold Core.dest
      rw [kind]
      dsimp only
      rw [sum, Option.bind_eq_bind, Option.bind_some, if_pos fits]
      constructor
      · rintro (⟨loc, checked⟩ | ⟨k, checked⟩)
        · rw [checked]
          rfl
        · rw [checked]
          rfl
      · rintro d bytes valid rfl
        have reached : d = .linear addr ∧ ((∃ loc, core.mem.checkWrite addr bytes.length = .ok loc) ∨
            ∃ k, core.mem.checkWrite addr bytes.length = .error (.guarded k)) := by
          cases checked : core.mem.checkWrite addr bytes.length with
          | ok loc =>
            rw [checked] at valid
            cases valid
            exact ⟨rfl, .inl ⟨loc, rfl⟩⟩
          | error err =>
            rw [checked] at valid
            cases err with
            | null => cases valid
            | invalid q => cases valid
            | guarded k =>
              cases valid
              exact ⟨rfl, .inr ⟨k, rfl⟩⟩
        obtain ⟨rfl, reaches⟩ := reached
        exact iff_of_true (writeDest_linear r (checkWrite_reaches.mp reaches)) reaches

end Blocks

end Qcvm

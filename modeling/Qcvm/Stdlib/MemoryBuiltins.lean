import Qcvm.Stdlib.MemoryBlocks
import Qcvm.Vm.Resume

/-!
# What the memory builtins do

A builtin that can reach its ranges stores to the cells of one block what it says, and nothing else; one
that cannot raises an error and changes no memory. What is copied compares as equal, and over a run of
calls only RETURN and unprotected cells of the destinations change.
-/

namespace Qcvm

open Lib

/-! ## What the builtins do -/

namespace Core

/-- Bytes are written to a block, or skipped with a warning where it lies in a protected entity. -/
def Writes (core core' : Core) (cells : List Cell) (bytes : List Byte) : Prop :=
  (∃ e, (∀ c ∈ cells, core.Protects c) ∧ core' = core.warn (.readOnlyEntity e)) ∨
    core.Stored core' cells bytes

variable {core : Core} {n : Nat}

/-- A write to where it is possible. -/
lemma writable_cases (r : core.mem.Regions) (small : n < 2 ^ 31) {ptr ofs : Word}
    (writable : core.Writable ptr ofs n) :
    ∃ d cells, core.dest ptr ofs n = some d ∧ core.block ptr ofs n = some cells ∧ cells.length = n ∧
      ∀ bytes : List Byte, bytes.length = n →
        ∃ core', core.writeDest d bytes = (true, core') ∧ core.Writes core' cells bytes := by
  obtain ⟨some, writes⟩ := @dest_writable core ptr ofs n r small
  obtain ⟨d, valid⟩ := Option.isSome_iff_exists.mp (some writable)
  obtain ⟨cells, block, length, does⟩ := dest_cases r valid
  refine ⟨d, cells, valid, block, length, fun bytes same => ?_⟩
  have done := (writes d bytes valid same).mpr writable
  rcases does bytes same with ⟨e, guarded, skipped⟩ | refused | ⟨core', written, stored⟩
  · exact ⟨_, skipped, .inl ⟨e, guarded, rfl⟩⟩
  · rw [refused] at done
    cases done
  · exact ⟨core', written, .inr stored⟩

/-- A write to where it is not possible. -/
lemma unwritable_cases (r : core.mem.Regions) (small : n < 2 ^ 31) {ptr ofs : Word}
    (refused : ¬core.Writable ptr ofs n) :
    core.dest ptr ofs n = none ∨ ∃ d, core.dest ptr ofs n = some d ∧
      ∀ bytes : List Byte, bytes.length = n → core.writeDest d bytes = (false, core) := by
  cases valid : core.dest ptr ofs n with
  | none => exact .inl rfl
  | some d =>
    obtain ⟨-, writes⟩ := @dest_writable core ptr ofs n r small
    obtain ⟨cells, block, length, does⟩ := dest_cases r valid
    refine .inr ⟨d, rfl, fun bytes same => ?_⟩
    have failed : (core.writeDest d bytes).1 ≠ true := fun done =>
      refused ((writes d bytes valid same).mp done)
    rcases does bytes same with ⟨e, guarded, skipped⟩ | kept | ⟨core', written, stored⟩
    · rw [skipped] at failed
      exact absurd rfl failed
    · exact kept
    · rw [written] at failed
      exact absurd rfl failed

/-- `memcpy` stores what the source held before, where it can be read and the destination written. -/
lemma memcpy_spec (r : core.mem.Regions) (dst src sofs dofs : Word) {size : Word}
    (count : toUsize size = some n) (some : 0 < n) :
    (core.Writable dst dofs n ∧ core.Readable src sofs n →
      ∃ cells other, core.block dst dofs n = .some cells ∧ core.block src sofs n = .some other ∧
        cells.length = n ∧ other.length = n ∧ (core.memcpy dst src size sofs dofs).1 = .ok () ∧
        core.Writes (core.memcpy dst src size sofs dofs).2 cells (load core.cell other)) ∧
    (¬(core.Writable dst dofs n ∧ core.Readable src sofs n) →
      ∃ msg, core.memcpy dst src size sofs dofs = core.softError msg) := by
  have small := toUsize_small count
  unfold memcpy
  rw [count]
  dsimp only
  rw [if_neg some.ne']
  constructor
  · rintro ⟨writable, readable⟩
    obtain ⟨d, cells, valid, block, length, writes⟩ := writable_cases r small writable
    obtain ⟨bytes, read⟩ := Option.isSome_iff_exists.mp ((readRange_isSome r small).mpr readable)
    obtain ⟨other, source, rfl, length'⟩ := readRange_eq r read
    obtain ⟨core', written, does⟩ := writes _ (length_load.trans length')
    rw [valid, read]
    dsimp only
    rw [written]
    exact ⟨cells, other, block, source, length, length', rfl, does⟩
  · intro refused
    by_cases writable : core.Writable dst dofs n
    · have unreadable : core.readRange src sofs n = none := by
        cases read : core.readRange src sofs n with
        | none => rfl
        | some bytes =>
          have found : (core.readRange src sofs n).isSome := by rw [read]; rfl
          exact absurd ⟨writable, (readRange_isSome r small).mp found⟩ refused
      obtain ⟨d, cells, valid, -⟩ := writable_cases r small writable
      rw [valid, unreadable]
      exact ⟨_, rfl⟩
    · rcases unwritable_cases r small writable with none | ⟨d, valid, kept⟩
      · rw [none]
        exact ⟨_, rfl⟩
      · rw [valid]
        cases read : core.readRange src sofs n with
        | none => exact ⟨_, rfl⟩
        | some bytes =>
          obtain ⟨other, source, rfl, length'⟩ := readRange_eq r read
          dsimp only
          rw [kept _ (length_load.trans length')]
          exact ⟨_, rfl⟩

/-- `memfill8` stores one byte everywhere. -/
lemma memfill8_spec (r : core.mem.Regions) (dst value dofs : Word) {size : Word}
    (count : toUsize size = some n) :
    (core.Writable dst dofs n →
      ∃ cells, core.block dst dofs n = some cells ∧ cells.length = n ∧
        (core.memfill8 dst value size dofs).1 = .ok () ∧
        core.Writes (core.memfill8 dst value size dofs).2 cells (List.replicate n (value.setWidth 8))) ∧
    (¬core.Writable dst dofs n → ∃ msg, core.memfill8 dst value size dofs = core.softError msg) := by
  have small := toUsize_small count
  unfold memfill8
  rw [count, Option.bind_some]
  constructor
  · intro writable
    obtain ⟨d, cells, valid, block, length, writes⟩ := writable_cases r small writable
    obtain ⟨core', written, does⟩ := writes (List.replicate n (value.setWidth 8)) List.length_replicate
    rw [valid, Option.map_some]
    dsimp only
    rw [written]
    exact ⟨cells, block, length, rfl, does⟩
  · intro refused
    rcases unwritable_cases r small refused with none | ⟨d, valid, kept⟩
    · rw [none, Option.map_none]
      exact ⟨_, rfl⟩
    · rw [valid, Option.map_some]
      dsimp only
      rw [kept _ List.length_replicate]
      exact ⟨_, rfl⟩

/-- The first difference is that of the first bytes that differ. -/
lemma firstDifference_eq {x y : List Byte} (length : x.length = y.length) :
    firstDifference x y = 0 ∧ x = y ∨ ∃ s a u b v, x = s ++ a :: u ∧ y = s ++ b :: v ∧ a ≠ b ∧
      firstDifference x y = (a.toNat : Int) - b.toNat := by
  induction x generalizing y with
  | nil =>
    cases y with
    | nil => exact .inl ⟨rfl, rfl⟩
    | cons b y => cases length
  | cons a x ih =>
    cases y with
    | nil => cases length
    | cons b y =>
      unfold firstDifference
      by_cases same : a = b
      · subst same
        rw [if_pos rfl]
        rcases ih (Nat.succ.inj length) with ⟨zero, rfl⟩ | ⟨s, c, u, d, v, rfl, rfl, differ, value⟩
        · exact .inl ⟨zero, rfl⟩
        · exact .inr ⟨a :: s, c, u, d, v, rfl, rfl, differ, value⟩
      · rw [if_neg same]
        exact .inr ⟨[], a, x, b, y, rfl, rfl, same, rfl⟩

/-- What a block is and whether it can be read depend on the regions and the buffers. -/
lemma block_congr {core' : Core} (shape : core'.mem.shape = core.mem.shape)
    (live : ∀ slot, (core'.strings.tempRaw slot).isSome = (core.strings.tempRaw slot).isSome)
    (ptr ofs : Word) : core'.block ptr ofs n = core.block ptr ofs n := by
  unfold block
  cases classify ptr with
  | static i => rfl
  | linear p =>
    dsimp only
    cases linear p ofs with
    | none => rfl
    | some addr => exact congrArg (Option.map (·.block n)) (Memory.locate_of_shape shape)
  | temp slot =>
    dsimp only
    cases toUsize ofs with
    | none => rfl
    | some start =>
      have same := live slot
      cases raw : core.strings.tempRaw slot with
      | none =>
        rw [raw, Option.isSome_none, Option.isSome_eq_false_iff, Option.isNone_iff_eq_none] at same
        rw [same]
      | some data =>
        rw [raw, Option.isSome_some] at same
        obtain ⟨data', raw'⟩ := Option.isSome_iff_exists.mp same
        rw [raw']
        rfl

/-- What can be read depends on the shape, and the temp strings there are. -/
lemma Readable.congr {core' : Core} {ptr ofs : Word} (readable : core.Readable ptr ofs n)
    (shape : core'.mem.shape = core.mem.shape)
    (grows : ∀ slot data, core.strings.tempRaw slot = some data →
      ∃ data', core'.strings.tempRaw slot = some data' ∧ data.size ≤ data'.size) :
    core'.Readable ptr ofs n := by
  rcases readable with ⟨slot, start, data, temp, offset, raw, fits⟩ | ⟨p, addr, kind, sum, null, found⟩
  · obtain ⟨data', raw', size⟩ := grows slot data raw
    exact .inl ⟨slot, start, data', temp, offset, raw', Nat.le_trans fits size⟩
  · exact .inr ⟨p, addr, kind, sum, null, by rwa [Memory.locate_of_shape shape]⟩

/-- A range is read exactly where it can be. -/
lemma readRange_eq_some (r : core.mem.Regions) (small : n < 2 ^ 31) {ptr ofs : Word} {bytes : List Byte} :
    core.readRange ptr ofs n = some bytes ↔ core.Readable ptr ofs n ∧
      ∃ cells, core.block ptr ofs n = some cells ∧ bytes = load core.cell cells := by
  constructor
  · intro read
    obtain ⟨cells, block, loaded, -⟩ := readRange_eq r read
    exact ⟨(readRange_isSome r small).mp (by rw [read]; rfl), cells, block, loaded⟩
  · rintro ⟨readable, cells, block, rfl⟩
    obtain ⟨bytes, read⟩ := Option.isSome_iff_exists.mp ((readRange_isSome r small).mpr readable)
    obtain ⟨cells', block', rfl, -⟩ := readRange_eq r read
    rw [block] at block'
    cases block'
    exact read

/-- The bytes that are stored are read back. -/
lemma Stored.readRange {core' : Core} {cells : List Cell} {bytes : List Byte} {ptr ofs : Word}
    (s : core.Stored core' cells bytes) (r : core.mem.Regions) (small : n < 2 ^ 31) (some : 0 < n)
    (writable : core.Writable ptr ofs n) (block : core.block ptr ofs n = .some cells)
    (length : bytes.length = n) (distinct : cells.Nodup) (same : cells.length = n) :
    core'.readRange ptr ofs n = .some bytes := by
  refine (readRange_eq_some (r.of_shape s.shape) small).mpr ⟨?_, cells, ?_, ?_⟩
  · rcases writable with ⟨slot, start, data, temp, offset, -, raw, -⟩ | ⟨p, addr, kind, sum, null, found⟩
    · unfold Core.block at block
      rw [temp] at block
      dsimp only at block
      rw [offset, Option.bind_eq_bind, Option.bind_some, raw] at block
      cases block
      have last : Cell.temp slot (start + (n - 1)) ∈ tempBlock slot start n :=
        List.mem_map.mpr ⟨n - 1, List.mem_range.mpr (by omega), rfl⟩
      obtain ⟨data', raw', lt⟩ := s.room _ _ last
      exact .inl ⟨slot, start, data', temp, offset, raw', by omega⟩
    · exact .inr ⟨p, addr, kind, sum, fun zero => absurd zero null,
        by rwa [Memory.locate_of_shape s.shape]⟩
  · rw [block_congr s.shape s.live, block]
  · rw [s.cell, load_store distinct (length.trans same.symm)]

/-- What lies apart from the stored block is read as before. -/
lemma Stored.readRange_of_disjoint {core' : Core} {cells other : List Cell} {bytes read : List Byte}
    {ptr ofs : Word} (s : core.Stored core' cells bytes) (r : core.mem.Regions) (small : n < 2 ^ 31)
    (old : core.readRange ptr ofs n = some read) (block : core.block ptr ofs n = some other)
    (apart : cells.Disjoint other) : core'.readRange ptr ofs n = some read := by
  obtain ⟨readable, cells', block', rfl⟩ := (readRange_eq_some r small).mp old
  rw [block] at block'
  cases block'
  refine (readRange_eq_some (r.of_shape s.shape) small).mpr
    ⟨readable.congr s.shape s.grows, other, ?_, ?_⟩
  · rw [block_congr s.shape s.live, block]
  · rw [s.cell, load_store_of_disjoint apart]

/-- The block of a pointer has no cell twice. -/
lemma nodup_block {ptr ofs : Word} {cells : List Cell} (block : core.block ptr ofs n = some cells) :
    cells.Nodup := by
  unfold Core.block at block
  cases kind : classify ptr with
  | static i =>
    rw [kind] at block
    cases block
  | temp slot =>
    rw [kind] at block
    obtain ⟨start, -, block⟩ := Option.bind_eq_some_iff.mp block
    obtain ⟨data, -, block⟩ := Option.bind_eq_some_iff.mp block
    cases block
    exact nodup_tempBlock
  | linear p =>
    rw [kind] at block
    obtain ⟨addr, -, block⟩ := Option.bind_eq_some_iff.mp block
    obtain ⟨loc, -, rfl⟩ := Option.map_eq_some_iff.mp block
    exact Loc.nodup_block

/-- The cells of RETURN. -/
def returnCells (core : Core) : List Cell := (Loc.s (core.gbase + ofsReturn)).block 12

/-- A result changes RETURN only. -/
lemma cell_retRaw {a b c : Word} {d : Cell} (out : d ∉ core.returnCells) :
    (core.retRaw [a, b, c]).cell d = core.cell d := by
  obtain ⟨s, -, only⟩ := Memory.onlyS_setGs core.mem (core.gbase + ofsReturn) [a, b, c]
  cases d with
  | s i =>
    refine get_setGs_three ?_
    by_contra inside
    exact out (Loc.mem_block.mpr ⟨i, by omega, by omega, rfl⟩)
  | e i =>
    unfold retRaw cell
    rw [only]
  | h i =>
    unfold retRaw cell
    rw [only]
  | temp slot i => rfl

/-- Setting the return value keeps the bytes apart from RETURN. -/
lemma readRange_retRaw (r : core.mem.Regions) (small : n < 2 ^ 31) {ptr ofs a b c : Word}
    {bytes : List Byte} {other : List Cell} (read : core.readRange ptr ofs n = some bytes)
    (block : core.block ptr ofs n = some other) (apart : core.returnCells.Disjoint other) :
    (core.retRaw [a, b, c]).readRange ptr ofs n = some bytes := by
  have shape : (core.retRaw [a, b, c]).mem.shape = core.mem.shape := Memory.shape_setGs _ _ _
  obtain ⟨readable, cells, block', rfl⟩ := (readRange_eq_some r small).mp read
  rw [block] at block'
  cases block'
  refine (readRange_eq_some (r.of_shape shape) small).mpr
    ⟨readable.congr shape fun _ data raw => ⟨data, raw, le_rfl⟩, other, ?_, ?_⟩
  · rw [block_congr shape fun _ => rfl, block]
  · exact List.map_congr_left fun d mem => (cell_retRaw fun inside => apart inside mem).symm

/-- Two lists of bytes compare as 0 if they are equal, else as the first bytes that differ. -/
def Compares (x y : List Byte) (d : Int) : Prop :=
  d = 0 ∧ x = y ∨ ∃ s a u b v, x = s ++ a :: u ∧ y = s ++ b :: v ∧ a ≠ b ∧ d = (a.toNat : Int) - b.toNat

/-- `memcmp` compares what the ranges hold once RETURN is zeroed. -/
lemma memcmp_spec (r : core.mem.Regions) (a b aofs bofs : Word) {size : Word}
    (count : toUsize size = some n) (some : 0 < n) :
    (core.Readable a aofs n ∧ core.Readable b bofs n →
      ∃ x y d, core.block a aofs n = .some x ∧ core.block b bofs n = .some y ∧
        Compares (load (core.retRaw [0, 0, 0]).cell x) (load (core.retRaw [0, 0, 0]).cell y) d ∧
        core.memcmp a b size aofs bofs =
          (.ok (), (core.retRaw [0, 0, 0]).retRaw [BitVec.ofInt 32 d, 0, 0])) ∧
    (¬(core.Readable a aofs n ∧ core.Readable b bofs n) →
      ∃ msg, core.memcmp a b size aofs bofs = (core.retRaw [0, 0, 0]).softError msg) := by
  have small := toUsize_small count
  have shape : (core.retRaw [0, 0, 0]).mem.shape = core.mem.shape := Memory.shape_setGs _ _ _
  have r' := r.of_shape shape
  have readable (ptr ofs : Word) :
      core.Readable ptr ofs n ↔ ((core.retRaw [0, 0, 0]).readRange ptr ofs n).isSome := by
    rw [readRange_isSome r' small]
    exact ⟨fun h => h.congr shape fun _ data raw => ⟨data, raw, le_rfl⟩,
      fun h => h.congr shape.symm fun _ data raw => ⟨data, raw, le_rfl⟩⟩
  have block (ptr ofs : Word) : (core.retRaw [0, 0, 0]).block ptr ofs n = core.block ptr ofs n :=
    block_congr shape (fun _ => rfl) ptr ofs
  unfold memcmp
  rw [count]
  dsimp only
  rw [if_neg some.ne', readable, readable]
  cases first : (core.retRaw [0, 0, 0]).readRange a aofs n with
  | none =>
    refine ⟨fun found => ?_, fun _ => ⟨_, rfl⟩⟩
    cases found.1
  | some x =>
    obtain ⟨cells, source, loaded, length⟩ := readRange_eq r' first
    cases second : (core.retRaw [0, 0, 0]).readRange b bofs n with
    | none =>
      refine ⟨fun found => ?_, fun _ => ⟨_, rfl⟩⟩
      cases found.2
    | some y =>
      obtain ⟨cells', source', loaded', length'⟩ := readRange_eq r' second
      refine ⟨fun _ => ⟨cells, cells', firstDifference x y, block a aofs ▸ source,
        block b bofs ▸ source', ?_, rfl⟩, fun missing => absurd ⟨rfl, rfl⟩ missing⟩
      rw [← loaded, ← loaded']
      refine firstDifference_eq ?_
      rw [loaded, loaded', length_load, length_load, length, length']

variable {size : Word}

/-- **The memory builtins act on one memory of cells.** -/
theorem memory_builtins_exact (r : core.mem.Regions) (p q ofs qofs value : Word)
    (count : toUsize size = some n) (some : 0 < n) :
    ((core.Writable p ofs n ∧ core.Readable q qofs n →
      ∃ cells other, core.block p ofs n = .some cells ∧ core.block q qofs n = .some other ∧
        cells.length = n ∧ other.length = n ∧ (core.memcpy p q size qofs ofs).1 = .ok () ∧
        core.Writes (core.memcpy p q size qofs ofs).2 cells (load core.cell other)) ∧
    (¬(core.Writable p ofs n ∧ core.Readable q qofs n) →
      ∃ msg, core.memcpy p q size qofs ofs = core.softError msg)) ∧
    ((core.Writable p ofs n →
      ∃ cells, core.block p ofs n = .some cells ∧ cells.length = n ∧
        (core.memfill8 p value size ofs).1 = .ok () ∧
        core.Writes (core.memfill8 p value size ofs).2 cells (List.replicate n (value.setWidth 8))) ∧
    (¬core.Writable p ofs n → ∃ msg, core.memfill8 p value size ofs = core.softError msg)) ∧
    (core.Readable p ofs n ∧ core.Readable q qofs n →
      ∃ x y d, core.block p ofs n = .some x ∧ core.block q qofs n = .some y ∧
        Compares (load (core.retRaw [0, 0, 0]).cell x) (load (core.retRaw [0, 0, 0]).cell y) d ∧
        core.memcmp p q size ofs qofs =
          (.ok (), (core.retRaw [0, 0, 0]).retRaw [BitVec.ofInt 32 d, 0, 0])) ∧
    (¬(core.Readable p ofs n ∧ core.Readable q qofs n) →
      ∃ msg, core.memcmp p q size ofs qofs = (core.retRaw [0, 0, 0]).softError msg) :=
  ⟨memcpy_spec r p q qofs ofs count some, memfill8_spec r p value ofs count,
    memcmp_spec r p q ofs qofs count some⟩

/-- Two blocks of region S, and the null pointer, in a VM for the smallest program. -/
lemma exists_blocks : ∃ core : Core, core.mem.Regions ∧ core.Writable 36 0 2 ∧
    core.Readable 36 0 2 ∧ core.Readable 32 0 2 ∧ ¬core.Writable 0 0 2 ∧
    core.block 36 0 2 = some [.s 36, .s 37] ∧ core.block 32 0 2 = some [.s 32, .s 33] ∧
    core.returnCells.Disjoint [.s 36, .s 37] ∧ core.returnCells.Disjoint [.s 32, .s 33] := by
  have test : (Asm.minimal.boot .none .menu).any fun vm =>
      decide (vm.core.block 36 0 2 = some [.s 36, .s 37]) &&
        decide (vm.core.block 32 0 2 = some [.s 32, .s 33]) &&
        (vm.core.mem.locate 36 2).isSome && (vm.core.readRange 36 0 2).isSome &&
        (vm.core.readRange 32 0 2).isSome &&
        decide (∀ c ∈ vm.core.returnCells, c ∉ [.s 36, .s 37]) &&
        decide (∀ c ∈ vm.core.returnCells, c ∉ [.s 32, .s 33]) := by
    decide +kernel
  obtain ⟨vm, boot, holds⟩ := (Option.any_eq_true _ _).mp test
  simp only [Bool.and_eq_true, decide_eq_true_eq] at holds
  obtain ⟨⟨⟨⟨⟨⟨block, source⟩, found⟩, read⟩, read'⟩, away⟩, away'⟩ := holds
  have regions := (layout_buildCore (built_of_boot boot)).mem.toRegions
  refine ⟨vm.core, regions, .inr ⟨36, 36, by decide, by decide, by decide, found⟩,
    (readRange_isSome regions (by decide)).mp read, (readRange_isSome regions (by decide)).mp read',
    ?_, block, source, List.disjoint_left.mpr away, List.disjoint_left.mpr away'⟩
  rintro (⟨slot, start, data, kind, -⟩ | ⟨p, addr, kind, at', null, -⟩)
  · cases kind
  · cases kind
    cases at'
    exact null rfl

/-- Two bytes are copied, filled and compared; a copy to the null pointer is a soft error. -/
theorem memory_builtins_minimal : ∃ core : Core,
    ((core.memcpy 36 32 2 0 0).1 = .ok () ∧
      core.Writes (core.memcpy 36 32 2 0 0).2 [.s 36, .s 37] (load core.cell [.s 32, .s 33])) ∧
    ((core.memfill8 36 7 2 0).1 = .ok () ∧
      core.Writes (core.memfill8 36 7 2 0).2 [.s 36, .s 37] [7, 7]) ∧
    (∃ d, Compares (load (core.retRaw [0, 0, 0]).cell [.s 36, .s 37])
        (load (core.retRaw [0, 0, 0]).cell [.s 32, .s 33]) d ∧
      core.memcmp 36 32 2 0 0 = (.ok (), (core.retRaw [0, 0, 0]).retRaw [BitVec.ofInt 32 d, 0, 0])) ∧
    ∃ msg, core.memcpy 0 32 2 0 0 = core.softError msg := by
  obtain ⟨core, regions, writable, readable, readable', null, block, source, -⟩ := exists_blocks
  obtain ⟨⟨copy, -⟩, ⟨fill, -⟩, compare, -⟩ :=
    @memory_builtins_exact core 2 2 regions 36 32 0 0 7 (by decide) (by decide)
  obtain ⟨⟨-, refused⟩, -⟩ :=
    @memory_builtins_exact core 2 2 regions 0 32 0 0 7 (by decide) (by decide)
  obtain ⟨cells, other, at', from', -, -, copied, writes⟩ := copy ⟨writable, readable'⟩
  obtain ⟨filled, there, -, done, writes'⟩ := fill writable
  obtain ⟨x, y, d, first, second, compares, compared⟩ := compare ⟨readable, readable'⟩
  cases block.symm.trans at'
  cases source.symm.trans from'
  cases block.symm.trans there
  cases block.symm.trans first
  cases source.symm.trans second
  exact ⟨core, ⟨copied, writes⟩, ⟨done, writes'⟩, ⟨d, compares, compared⟩,
    refused fun both => null both.1⟩

/-- Bytes that are equal compare as 0. -/
lemma firstDifference_self (x : List Byte) : firstDifference x x = 0 := by
  induction x with
  | nil => rfl
  | cons a x ih => exact (if_pos rfl).trans ih

/-- **What `memcpy` copies is what the source held, wherever the ranges lie**: the destination reads as the
source did, what lies apart from it reads as before, and `memcmp` then finds no difference. -/
theorem memcpy_copies (r : core.mem.Regions) {dst src sofs dofs : Word} {cells other : List Cell}
    (count : toUsize size = some n) (some : 0 < n) (writable : core.Writable dst dofs n)
    (readable : core.Readable src sofs n) (block : core.block dst dofs n = .some cells)
    (source : core.block src sofs n = .some other) (free : ∃ c ∈ cells, ¬core.Protects c) :
    ∃ core', core.memcpy dst src size sofs dofs = (.ok (), core') ∧
      core'.readRange dst dofs n = core.readRange src sofs n ∧
      (∀ ptr ofs k read x, k < 2 ^ 31 → core.readRange ptr ofs k = .some read →
        core.block ptr ofs k = .some x → cells.Disjoint x → core'.readRange ptr ofs k = .some read) ∧
      (cells.Disjoint other → core.returnCells.Disjoint cells → core.returnCells.Disjoint other →
        core'.memcmp dst src size dofs sofs = (.ok (), (core'.retRaw [0, 0, 0]).retRaw [0, 0, 0])) := by
  have small := toUsize_small count
  obtain ⟨cells', other', block', source', length, length', done, writes⟩ :=
    (memcpy_spec r dst src sofs dofs count some).1 ⟨writable, readable⟩
  rw [block] at block'
  rw [source] at source'
  cases block'
  cases source'
  generalize made : core.memcpy dst src size sofs dofs = result at done writes
  obtain ⟨outcome, core'⟩ := result
  cases done
  rcases writes with ⟨e, protects, -⟩ | (s : core.Stored core' cells (load core.cell other))
  · obtain ⟨c, mem, unprotected⟩ := free
    exact absurd (protects c mem) unprotected
  · have old : core.readRange src sofs n = .some (load core.cell other) :=
      (readRange_eq_some r small).mpr ⟨readable, other, source, rfl⟩
    have back := s.readRange r small some writable block (length_load.trans length')
      (nodup_block block) length
    refine ⟨core', rfl, back.trans old.symm, fun ptr ofs k read x small' old' block' apart =>
      s.readRange_of_disjoint r small' old' block' apart, fun apart away away' => ?_⟩
    have r' := r.of_shape s.shape
    have gbase : core'.returnCells = core.returnCells := (congrArg returnCells s.rest).trans rfl
    have same := readRange_retRaw (c := 0) (a := 0) (b := 0) r' small back
      ((block_congr s.shape s.live dst dofs).trans block) (by rwa [gbase])
    have same' := readRange_retRaw (c := 0) (a := 0) (b := 0) r' small
      (s.readRange_of_disjoint r small old source apart)
      ((block_congr s.shape s.live src sofs).trans source) (by rwa [gbase])
    unfold memcmp
    rw [count]
    dsimp only
    rw [if_neg some.ne', same, same']
    dsimp only
    rw [firstDifference_self]
    rfl

/-- Two bytes are copied to others, and compare as 0. -/
theorem memcpy_copies_minimal : ∃ core core' : Core, core.memcpy 36 32 2 0 0 = (.ok (), core') ∧
    core'.readRange 36 0 2 = core.readRange 32 0 2 ∧
    core'.memcmp 36 32 2 0 0 = (.ok (), (core'.retRaw [0, 0, 0]).retRaw [0, 0, 0]) := by
  obtain ⟨core, regions, writable, -, readable, -, block, source, away, away'⟩ := exists_blocks
  obtain ⟨core', done, back, -, equal⟩ := @memcpy_copies core 2 2 regions 36 32 0 0 _ _ (by decide)
    (by decide) writable readable block source ⟨.s 36, by decide, fun ⟨_, other, _⟩ => by cases other⟩
  exact ⟨core, core', done, back, equal (by simp [List.Disjoint]) away away'⟩

end Core

/-! ## Runs of calls -/

/-- A call of a memory builtin, with the words that its arguments are. -/
inductive MemoryCall where
  | memcpy (dst src size sofs dofs : Word)
  | memfill8 (dst value size dofs : Word)
  | memcmp (a b size aofs bofs : Word)
  | memgetval (p ofs : Word)
  | memsetval (p ofs value : Word)
  deriving DecidableEq, Repr

namespace MemoryCall

variable (F : FloatOps)

/-- What the call does. -/
def perform (core : Core) : MemoryCall → Except ErrorKind Unit × Core
  | .memcpy dst src size sofs dofs => core.memcpy dst src size sofs dofs
  | .memfill8 dst value size dofs => core.memfill8 dst value size dofs
  | .memcmp a b size aofs bofs => core.memcmp a b size aofs bofs
  | .memgetval p ofs => core.memgetval F p ofs
  | .memsetval p ofs value => core.memsetval F p ofs value

/-- The block that the call names as its destination. -/
def target (core : Core) : MemoryCall → List Cell
  | .memcpy dst _ size _ dofs => ((Core.toUsize size).bind (core.block dst dofs)).getD []
  | .memfill8 dst _ size dofs => ((Core.toUsize size).bind (core.block dst dofs)).getD []
  | .memcmp .. => []
  | .memgetval .. => []
  | .memsetval p ofs _ => ((core.wordAddress F "memsetval" p ofs).1.bind fun addr =>
      (core.mem.locate addr 4).map (·.block 4)).getD []

/-- The core after a run of calls, whatever they return. -/
def performs (core : Core) : List MemoryCall → Core
  | [] => core
  | call :: calls => performs (call.perform F core).2 calls

/-- The destinations of a run of calls. -/
def targets (core : Core) : List MemoryCall → List Cell
  | [] => []
  | call :: calls => call.target F core ++ targets (call.perform F core).2 calls

end MemoryCall

namespace Core

/-- RETURN and the unprotected cells of a block change, and nothing else does: the regions keep their
shape, the entities their state, and no buffer comes or goes. -/
structure Touches (core core' : Core) (cells : List Cell) : Prop where
  shape : core'.mem.shape = core.mem.shape
  slots : core'.mem.slots = core.mem.slots
  live : ∀ slot, (core'.strings.tempRaw slot).isSome = (core.strings.tempRaw slot).isSome
  returns : core'.returnCells = core.returnCells
  cell : ∀ c, core'.cell c ≠ core.cell c → c ∈ core.returnCells ∨ c ∈ cells ∧ ¬core.Protects c

variable {core core' core'' : Core} {cells cells' : List Cell}

/-- A call that does nothing touches no cells. -/
lemma Touches.refl (core : Core) (cells : List Cell) : core.Touches core cells :=
  ⟨rfl, rfl, fun _ => rfl, rfl, fun _ changed => absurd rfl changed⟩

/-- Protection depends on the shape and the slots alone. -/
lemma protects_congr (shape : core'.mem.shape = core.mem.shape) (slots : core'.mem.slots = core.mem.slots)
    {c : Cell} : core'.Protects c ↔ core.Protects c := by
  have stride := Memory.stride_of_shape shape
  unfold Protects Memory.guarded
  rw [stride, slots]

/-- Calls in sequence touch the cells of each. -/
lemma Touches.trans (s : core.Touches core' cells) (t : core'.Touches core'' cells') :
    core.Touches core'' (cells ++ cells') := by
  refine ⟨t.shape.trans s.shape, t.slots.trans s.slots, fun slot => (t.live slot).trans (s.live slot),
    t.returns.trans s.returns, fun c changed => ?_⟩
  by_cases first : core'.cell c = core.cell c
  · rcases t.cell c fun same => changed (same.trans first) with result | ⟨mem, free⟩
    · exact .inl (s.returns ▸ result)
    · exact .inr ⟨List.mem_append_right _ mem, fun guards =>
        free ((protects_congr s.shape s.slots).mpr guards)⟩
  · rcases s.cell c first with result | ⟨mem, free⟩
    · exact .inl result
    · exact .inr ⟨List.mem_append_left _ mem, free⟩

/-- A core whose memory and strings are the same. -/
lemma Touches.of_same (mem : core'.mem = core.mem) (strings : core'.strings = core.strings)
    (returns : core'.returnCells = core.returnCells) : core.Touches core' cells := by
  refine ⟨by rw [mem], by rw [mem], fun _ => by rw [strings], returns, fun c changed => absurd ?_ changed⟩
  cases c with
  | s i => exact congrArg (fun m : Memory => m.s.get i) mem
  | e i => exact congrArg (fun m : Memory => m.e.get i) mem
  | h i => exact congrArg (fun m : Memory => m.heap.data.get i) mem
  | temp slot i => exact congrArg (fun s : Strings => ((s.tempRaw slot).map (·.get i)).getD 0) strings

/-- A warning keeps where RETURN is. -/
lemma returnCells_warn (kind : WarningKind) : (core.warn kind).returnCells = core.returnCells := by
  unfold warn
  dsimp only
  split <;> rfl

/-- A warning touches no cells. -/
lemma touches_warn (kind : WarningKind) : core.Touches (core.warn kind) cells :=
  .of_same (mem_warn _ _) (strings_warn _ _) (returnCells_warn _)

/-- The return value touches the cells of RETURN. -/
lemma touches_retRaw (a b c : Word) : core.Touches (core.retRaw [a, b, c]) cells := by
  have slots : (core.retRaw [a, b, c]).mem.slots = core.mem.slots := by
    obtain ⟨s, -, only⟩ := Memory.onlyS_setGs core.mem (core.gbase + ofsReturn) [a, b, c]
    unfold retRaw
    rw [only]
  refine ⟨Memory.shape_setGs _ _ _, slots, fun _ => rfl, rfl, fun d changed => .inl ?_⟩
  by_contra out
  exact changed (cell_retRaw out)

/-- A soft error touches the cells of RETURN. -/
lemma touches_softError (msg : String) : core.Touches (core.softError msg).2 cells := by
  unfold softError
  split
  next => exact ((touches_warn _).trans (touches_retRaw 0 0 0) : core.Touches _ ([] ++ cells))
  next => exact .refl _ _

/-- A store touches its cells. -/
lemma Stored.touches {bytes : List Byte} (s : core.Stored core' cells bytes) :
    core.Touches core' cells := by
  refine ⟨s.shape, s.slots, s.live, (congrArg returnCells s.rest).trans rfl, fun c changed => .inr ?_⟩
  by_cases mem : c ∈ cells
  · exact ⟨mem, s.free c mem⟩
  · exact absurd (by rw [s.cell, store_of_not_mem mem]) changed

/-- A write touches its cells. -/
lemma Writes.touches {bytes : List Byte} (w : core.Writes core' cells bytes) :
    core.Touches core' cells := by
  rcases w with ⟨e, -, rfl⟩ | s
  · exact touches_warn _
  · exact s.touches

variable {F : FloatOps}

/-- An address is only computed: at most warnings are raised. -/
lemma wordAddress_same (name : String) (p ofs : Word) :
    (core.wordAddress F name p ofs).2.mem = core.mem ∧
      (core.wordAddress F name p ofs).2.strings = core.strings ∧
      (core.wordAddress F name p ofs).2.returnCells = core.returnCells := by
  have warned (core' : Core) (kind : WarningKind) (cond : Prop) [Decidable cond]
      (same : core'.mem = core.mem ∧ core'.strings = core.strings ∧ core'.returnCells = core.returnCells) :
      (if cond then core'.warn kind else core').mem = core.mem ∧
        (if cond then core'.warn kind else core').strings = core.strings ∧
        (if cond then core'.warn kind else core').returnCells = core.returnCells := by
    split
    next =>
      exact ⟨(mem_warn _ _).trans same.1, (strings_warn _ _).trans same.2.1,
        (returnCells_warn _).trans same.2.2⟩
    next => exact same
  unfold wordAddress
  dsimp only
  split
  next => exact warned _ _ _ (warned core _ _ ⟨rfl, rfl, rfl⟩)
  next => exact warned core _ _ ⟨rfl, rfl, rfl⟩

/-- `memcpy` touches its target. -/
lemma touches_memcpy (r : core.mem.Regions) (dst src size sofs dofs : Word) :
    core.Touches (core.memcpy dst src size sofs dofs).2
      (((toUsize size).bind (core.block dst dofs)).getD []) := by
  cases count : toUsize size with
  | none =>
    unfold memcpy
    rw [count]
    exact touches_softError _
  | some n =>
    rw [Option.bind_some]
    by_cases zero : n = 0
    · unfold memcpy
      rw [count]
      dsimp only
      rw [if_pos zero]
      exact .refl _ _
    · have spec := memcpy_spec r dst src sofs dofs count (Nat.pos_of_ne_zero zero)
      by_cases possible : core.Writable dst dofs n ∧ core.Readable src sofs n
      · obtain ⟨cells, other, block, -, -, -, -, writes⟩ := spec.1 possible
        rw [block, Option.getD_some]
        exact writes.touches
      · obtain ⟨msg, refused⟩ := spec.2 possible
        rw [refused]
        exact touches_softError msg

/-- `memfill8` touches its target. -/
lemma touches_memfill8 (r : core.mem.Regions) (dst value size dofs : Word) :
    core.Touches (core.memfill8 dst value size dofs).2
      (((toUsize size).bind (core.block dst dofs)).getD []) := by
  cases count : toUsize size with
  | none =>
    unfold memfill8
    rw [count]
    exact touches_softError _
  | some n =>
    rw [Option.bind_some]
    have spec := memfill8_spec r dst value dofs count
    by_cases possible : core.Writable dst dofs n
    · obtain ⟨cells, block, -, -, writes⟩ := spec.1 possible
      rw [block, Option.getD_some]
      exact writes.touches
    · obtain ⟨msg, refused⟩ := spec.2 possible
      rw [refused]
      exact touches_softError msg

/-- `memcmp` touches nothing but RETURN. -/
lemma touches_memcmp (a b size aofs bofs : Word) :
    core.Touches (core.memcmp a b size aofs bofs).2 [] := by
  have zeroed : core.Touches (core.retRaw [0, 0, 0]) [] := touches_retRaw 0 0 0
  have refused (msg : String) : core.Touches ((core.retRaw [0, 0, 0]).softError msg).2 ([] ++ []) :=
    zeroed.trans (touches_softError msg)
  unfold memcmp
  dsimp only
  split
  next => exact refused _
  next n _ =>
    by_cases zero : n = 0
    · rw [if_pos zero]
      exact zeroed
    · rw [if_neg zero]
      split
      next => exact refused _
      next =>
        split
        next => exact refused _
        next => exact (zeroed.trans (touches_retRaw _ 0 0) : core.Touches _ ([] ++ []))

/-- `memgetval` touches nothing but RETURN. -/
lemma touches_memgetval (p ofs : Word) : core.Touches (core.memgetval F p ofs).2 [] := by
  obtain ⟨mem, strings, returns⟩ := @wordAddress_same core F "memgetval" p ofs
  unfold memgetval
  split
  next core' address =>
    rw [address] at mem strings returns
    exact .of_same mem strings returns
  next addr core' address =>
    rw [address] at mem strings returns
    have same : core.Touches core' [] := .of_same mem strings returns
    split
    next => exact (same.trans (touches_retRaw _ 0 0) : core.Touches _ ([] ++ []))
    next => exact same

/-- A write of a word through a pointer. -/
lemma touches_writeU32 (r : core.mem.Regions) {addr value : Word} {mem : Memory}
    (written : core.mem.writeU32 addr value = .ok mem) : core.Touches { core with mem := mem }
      (((core.mem.locate addr 4).map (·.block 4)).getD []) := by
  unfold Memory.writeU32 at written
  rw [r.write_eq] at written
  cases checked : core.mem.checkWrite addr (leBytes value).length with
  | error err =>
    rw [checked] at written
    cases written
  | ok loc =>
    rw [checked] at written
    cases written
    obtain ⟨-, found, -⟩ := Memory.checkWrite_eq_ok.mp checked
    have stored := (stored_write r checked).touches
    have four : (leBytes value).length = 4 := rfl
    rw [four] at found stored
    rw [found]
    exact stored

/-- `memsetval` touches the word it sets. -/
lemma touches_memsetval (r : core.mem.Regions) (p ofs value : Word) :
    core.Touches (core.memsetval F p ofs value).2
      (((core.wordAddress F "memsetval" p ofs).1.bind fun addr =>
        (core.mem.locate addr 4).map (·.block 4)).getD []) := by
  obtain ⟨mem, strings, returns⟩ := @wordAddress_same core F "memsetval" p ofs
  unfold memsetval
  cases address : core.wordAddress F "memsetval" p ofs with
  | mk target core' =>
    rw [address] at mem strings returns
    dsimp only at mem strings returns
    have same (cells : List Cell) : core.Touches core' cells := .of_same mem strings returns
    cases target with
    | none => exact same _
    | some addr =>
      have r' : core'.mem.Regions := mem ▸ r
      dsimp only
      rw [Option.bind_some]
      cases written : core'.mem.writeU32 addr value with
      | ok m =>
        have touched := (same []).trans (touches_writeU32 r' written)
        rw [mem, List.nil_append] at touched
        exact touched
      | error err =>
        cases err with
        | null => exact same _
        | invalid q => exact same _
        | guarded k => exact ((same []).trans (touches_warn _) : core.Touches _ ([] ++ _))

/-- Every memory call touches its target. -/
lemma touches_perform (r : core.mem.Regions) (call : MemoryCall) :
    core.Touches (call.perform F core).2 (call.target F core) := by
  cases call with
  | memcpy dst src size sofs dofs => exact touches_memcpy r dst src size sofs dofs
  | memfill8 dst value size dofs => exact touches_memfill8 r dst value size dofs
  | memcmp a b size aofs bofs => exact touches_memcmp a b size aofs bofs
  | memgetval p ofs => exact touches_memgetval p ofs
  | memsetval p ofs value => exact touches_memsetval r p ofs value

/-- **What a run of memory builtins can change.** Whatever the pointers, offsets and sizes are, and
whichever calls fail, only RETURN and unprotected cells of the destinations change. -/
theorem memory_calls_confined (r : core.mem.Regions) (calls : List MemoryCall) :
    core.Touches (MemoryCall.performs F core calls) (MemoryCall.targets F core calls) := by
  induction calls generalizing core with
  | nil => exact .refl _ _
  | cons call calls ih =>
    have first := touches_perform (F := F) r call
    exact first.trans (ih (r.of_shape first.shape))

/-- In a VM for the smallest program a run writes two bytes and fills a buffer that is not there. -/
theorem memory_calls_minimal : ∃ core : Core, core.Touches
    (MemoryCall.performs .onZero core [.memcpy 12 8 2 0 0, .memfill8 0xc0000001 7 4 0])
    (MemoryCall.targets .onZero core [.memcpy 12 8 2 0 0, .memfill8 0xc0000001 7 4 0]) := by
  obtain ⟨vm, boot⟩ := Option.isSome_iff_exists.mp
    (show (Asm.minimal.boot .none .menu).isSome = true by decide +kernel)
  exact ⟨vm.core, memory_calls_confined (layout_buildCore (built_of_boot boot)).mem.toRegions _⟩

end Core

end Qcvm

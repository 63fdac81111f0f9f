import Qcvm.Num

/-!
# The QuakeC heap

`vm/heap.rs`: a first-fit allocator over one byte region. The block tables (`BTreeMap`s in the
code) are lists in increasing order of the block offset. Host memory is taken to be available, so
`try_reserve` never fails.
-/

namespace Qcvm

open Lib

/-- Allocation granularity (and alignment) in bytes. -/
def heapAlign : Nat := 16

/-- `round_up`. -/
def roundUp (n : Nat) : Option Nat :=
  (checkedAdd (max n 1) (heapAlign - 1)).map fun v => v / heapAlign * heapAlign

/-- Blocks by offset, in increasing order. -/
abbrev Blocks (α : Type) := List (Nat × α)

namespace Blocks

variable {α : Type}

/-- `BTreeMap::insert`. -/
def insert (key : Nat) (value : α) : Blocks α → Blocks α
  | [] => [(key, value)]
  | (k, v) :: rest =>
    if key < k then (key, value) :: (k, v) :: rest
    else if key = k then (key, value) :: rest
    else (k, v) :: insert key value rest

/-- `BTreeMap::remove`. -/
def remove (key : Nat) (blocks : Blocks α) : Blocks α := blocks.filter fun b => b.1 != key

/-- `BTreeMap::get`. -/
def get (key : Nat) (blocks : Blocks α) : Option α := blocks.lookup key

/-- The last block below `key`. -/
def below (key : Nat) (blocks : Blocks α) : Option (Nat × α) :=
  (blocks.filter fun b => b.1 < key).getLast?

end Blocks

/-- A byte region with first-fit block allocation. -/
structure Heap where
  data : Arr Byte
  max : Nat
  /-- Allocated blocks: offset, rounded size, requested size. -/
  used : Blocks (Nat × Nat)
  /-- Free blocks inside `data`: offset, size. -/
  free : Blocks Nat

namespace Heap

/-- `Heap::new`. -/
def new (max : Nat) : Heap := ⟨.empty, max / heapAlign * heapAlign, [], []⟩

/-- Zeroes a block, if it lies in the region. -/
def zeroBlock (data : Arr Byte) (start size : Nat) : Arr Byte :=
  data.write start (List.replicate size 0)

/-- `Heap::alloc`: the offset of the block, and the heap it leaves, also where it fails. -/
def alloc (h : Heap) (n : Nat) : Option Nat × Heap :=
  match roundUp n with
  | none => (none, h)
  | some size =>
    match h.free.find? fun b => decide (size ≤ b.2) with
    | some (offset, len) =>
      let free := h.free.remove offset
      let taken (free : Blocks Nat) : Heap :=
        { h with
          free := free
          data := zeroBlock h.data offset size
          used := h.used.insert offset (size, n) }
      if len > size then
        match checkedAdd offset size with
        | none => (none, { h with free := free })
        | some rest => (some offset, taken (free.insert rest (len - size)))
      else (some offset, taken free)
    | none =>
      let offset := h.data.size
      if offset > u32Max then (none, h)
      else
        match checkedAdd offset size with
        | none => (none, h)
        | some finish =>
          if finish > h.max then (none, h)
          else
            (some offset, { h with
              data := zeroBlock (h.data.resize finish 0) offset size
              used := h.used.insert offset (size, n) })

/-- `Heap::free`; `none` if no block starts at `offset`. -/
def release (h : Heap) (offset : Nat) : Option Heap := do
  let (size, _) ← h.used.get offset
  let used := h.used.remove offset
  -- Merge with the following free block, then with the preceding one.
  let next := (checkedAdd offset size).bind h.free.get
  let len := saturatingAdd size (next.getD 0)
  let free := if next.isSome then h.free.remove (offset + size) else h.free
  let before := (free.below offset).filter fun b => checkedAdd b.1 b.2 = some offset
  match before with
  | some (prev, prevLen) =>
    let free := (free.remove prev).insert prev (saturatingAdd len prevLen)
    return { h with used := used, free := free }
  | none => return { h with used := used, free := free.insert offset len }

/-- The size originally requested for the block at `offset`. -/
def blockSize (h : Heap) (offset : Nat) : Option Nat := (h.used.get offset).map (·.2)

/-- `Heap::realloc`, with the heap it leaves also where it fails. -/
def realloc (h : Heap) (offset : Option Nat) (n : Nat) : Option Nat × Heap :=
  match offset with
  | none => h.alloc n
  | some old =>
    match h.blockSize old with
    | none => (none, h)
    | some oldSize =>
      match h.alloc n with
      | (none, h) => (none, h)
      | (some new, h) =>
        let h := { h with data := h.data.copyWithin old new (min oldSize n) }
        (some new, (h.release old).getD h)

/-! ## The region stays within its limit -/

/-- A heap whose region is within its limit. -/
def Bounded (h : Heap) : Prop := h.data.size ≤ h.max

lemma bounded_new (max : Nat) : (new max).Bounded := Nat.zero_le _

/-- An allocation keeps the limit and the region within it. -/
lemma alloc_bounded {h : Heap} (b : h.Bounded) (n : Nat) :
    (h.alloc n).2.Bounded ∧ (h.alloc n).2.max = h.max := by
  unfold alloc
  split
  next => exact ⟨b, rfl⟩
  next size _ =>
    split
    next =>
      dsimp only
      split
      next => split <;> exact ⟨b, rfl⟩
      next => exact ⟨b, rfl⟩
    next =>
      dsimp only
      split
      next => exact ⟨b, rfl⟩
      next =>
        split
        next => exact ⟨b, rfl⟩
        next =>
          split
          next => exact ⟨b, rfl⟩
          next within => exact ⟨Nat.le_of_not_lt within, rfl⟩

/-- Freeing a block keeps the limit and the region within it. -/
lemma release_bounded {h h' : Heap} {offset : Nat} (b : h.Bounded)
    (e : h.release offset = some h') : h'.Bounded ∧ h'.max = h.max := by
  unfold release at e
  obtain ⟨block, -, rest⟩ := Option.bind_eq_some_iff.mp e
  dsimp only at rest
  split at rest
  next =>
    cases rest
    exact ⟨b, rfl⟩
  next =>
    cases rest
    exact ⟨b, rfl⟩

/-- Moving a block keeps the limit and the region within it. -/
lemma realloc_bounded {h : Heap} (b : h.Bounded) (old : Option Nat) (n : Nat) :
    (h.realloc old n).2.Bounded ∧ (h.realloc old n).2.max = h.max := by
  cases old with
  | none => exact alloc_bounded b n
  | some old =>
    unfold realloc
    dsimp only
    split
    next => exact ⟨b, rfl⟩
    next oldSize _ =>
      obtain ⟨bounded, same⟩ := alloc_bounded b n
      split
      next mid failed =>
        rw [failed] at bounded same
        exact ⟨bounded, same⟩
      next new mid allocated =>
        rw [allocated] at bounded same
        have copied :
            ({ mid with data := mid.data.copyWithin old new (min oldSize n) } : Heap).Bounded := bounded
        dsimp only
        cases released :
            ({ mid with data := mid.data.copyWithin old new (min oldSize n) } : Heap).release old with
        | none => exact ⟨copied, same⟩
        | some last =>
          obtain ⟨kept, limit⟩ := release_bounded copied released
          exact ⟨kept, limit.trans same⟩

end Heap

end Qcvm

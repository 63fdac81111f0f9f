import Qcvm.Error
import Qcvm.Vm.Heap

/-!
# VM memory

`vm/memory.rs`: one byte-addressed space split into three regions. Region S holds the strings and
globals of the progs and the local stack, region E the entity blocks at a power-of-two stride,
region H the QuakeC heap. Pointers are 32-bit addresses in this space.
-/

namespace Qcvm

open Lib

/-- Where an access lands: the offset into its region, and the entity number in region E. -/
inductive Loc where
  | s (o : Nat)
  | e (o entity : Nat)
  | h (o : Nat)
  deriving DecidableEq, Repr

/-- State of an entity slot; `freetime` is the bits of a double. -/
structure EntSlot where
  inUse : Bool
  guarded : Bool
  freetime : DWord
  serial : Nat
  deriving DecidableEq, Repr

/-- A slot that was never used. -/
def EntSlot.unused : EntSlot := ⟨false, false, 0, 0⟩

/-- All QuakeC-addressable memory plus entity bookkeeping. -/
structure Memory where
  /-- Region S. -/
  s : Arr Byte
  /-- Region E. -/
  e : Arr Byte
  eBase : Nat
  strideShift : Nat
  /-- Bytes of each entity block that hold fields. -/
  fieldBytes : Nat
  maxEdicts : Nat
  slots : List EntSlot
  heap : Heap
  hBase : Nat
  /-- Local stack: byte offset in S and size in words. -/
  lsBase : Nat
  lsWords : Nat

/-- Why a pointer write failed. -/
inductive WriteError where
  | null
  | invalid (p : Word)
  | guarded (e : Nat)
  deriving DecidableEq, Repr

namespace Memory

variable (m : Memory)

/-- Bytes of an entity block. -/
def stride : Nat := 2 ^ m.strideShift

/-- Number of allocated entity slots. -/
def numEdicts : Nat := min m.slots.length u32Max

/-- Whether entity `e` is allocated and in use. -/
def inUse (e : Nat) : Bool := (m.slots[e]?.map (·.inUse)).getD false

/-- Whether entity `e` is protected against QuakeC writes. -/
def guarded (e : Nat) : Bool := (m.slots[e]?.map (·.guarded)).getD false

/-- `field_offset`: byte offset of entity `e`'s field `word` in region E, if both are valid. -/
def fieldOffset (e word words : Nat) : Option Nat :=
  if e ≥ m.numEdicts then none
  else if 4 * (word + words) > m.fieldBytes then none
  else some (e * m.stride + 4 * word)

/-- `field_address`: the pointer value of entity `e`'s field `word`, not validated. -/
def fieldAddress (e word : Word) : Word :=
  BitVec.ofNat 32 m.eBase + BitVec.ofNat 32 (e.toNat * m.stride) + word * 4

/-- The entity block and the offset within it of an `n`-byte access at address `p`, if it lies in a
valid field of an allocated entity. -/
def locateEntity (p n : Nat) : Option Loc :=
  if p < m.eBase then none
  else
    let off := p - m.eBase
    let e := off / m.stride
    if e < m.numEdicts ∧ off % m.stride + n ≤ m.fieldBytes then some (.e off e) else none

/-- The offset of an `n`-byte access at address `p`, if it lies in the heap. -/
def locateHeap (p n : Nat) : Option Loc :=
  if m.hBase ≤ p ∧ p - m.hBase + n ≤ m.heap.data.size then some (.h (p - m.hBase)) else none

/-- `locate`: locates an `n`-byte access at address `p`. -/
def locate (p : Word) (n : Nat) : Option Loc :=
  if p.toNat + n ≤ m.s.size then some (.s p.toNat)
  else (m.locateEntity p.toNat n).or (m.locateHeap p.toNat n)

/-- The region and offset of a location. -/
def region : Loc → Arr Byte × Nat
  | .s o => (m.s, o)
  | .e o _ => (m.e, o)
  | .h o => (m.heap.data, o)

/-- The memory with the region of a location replaced. -/
def setRegion (loc : Loc) (data : Arr Byte) : Memory :=
  match loc with
  | .s _ => { m with s := data }
  | .e _ _ => { m with e := data }
  | .h _ => { m with heap := { m.heap with data := data } }

/-- `read`: reads `n` bytes at `p`. -/
def read (p : Word) (n : Nat) : Option (List Byte) := do
  let loc ← m.locate p n
  let (data, o) := m.region loc
  if o + n ≤ data.size then some (data.slice o n) else none

/-- `read_u32`. -/
def readU32 (p : Word) : Option Word := (m.read p 4).map (wordOf · 0)

/-- `check_write`: checks a write of `n` bytes at `p`. -/
def checkWrite (p : Word) (n : Nat) : Except WriteError Loc :=
  if p = 0 then .error .null
  else
    match m.locate p n with
    | none => .error (.invalid p)
    | some loc =>
      match loc with
      | .e _ e => if m.guarded e then .error (.guarded e) else .ok loc
      | _ => .ok loc

lemma checkWrite_eq_ok {m : Memory} {p : Word} {n : Nat} {loc : Loc} :
    m.checkWrite p n = .ok loc ↔
      p ≠ 0 ∧ m.locate p n = some loc ∧ ∀ o e, loc = .e o e → m.guarded e = false := by
  unfold checkWrite
  by_cases null : p = 0
  · rw [if_pos null]
    exact ⟨nofun, fun h => absurd null h.1⟩
  · rw [if_neg null]
    cases found : m.locate p n with
    | none => exact ⟨nofun, fun h => nomatch h.2.1⟩
    | some loc' =>
      cases loc' with
      | s o =>
        constructor
        · intro h
          cases h
          exact ⟨null, rfl, nofun⟩
        · rintro ⟨-, same, -⟩
          cases same
          rfl
      | h o =>
        constructor
        · intro h
          cases h
          exact ⟨null, rfl, nofun⟩
        · rintro ⟨-, same, -⟩
          cases same
          rfl
      | e o e =>
        dsimp only
        cases guarded : m.guarded e with
        | true =>
          rw [if_pos rfl]
          constructor
          · intro h
            cases h
          · rintro ⟨-, same, free⟩
            cases same
            exact absurd (free o e rfl) (by simp [guarded])
        | false =>
          rw [if_neg Bool.false_ne_true]
          constructor
          · intro h
            cases h
            refine ⟨null, rfl, ?_⟩
            rintro _ _ ⟨⟩
            exact guarded
          · rintro ⟨-, same, -⟩
            cases same
            rfl

/-- `write`: writes bytes at `p`. -/
def write (p : Word) (bytes : List Byte) : Except WriteError Memory := do
  let loc ← m.checkWrite p bytes.length
  let (data, o) := m.region loc
  if o + bytes.length ≤ data.size then .ok (m.setRegion loc (data.write o bytes))
  else .error (.invalid p)

lemma write_eq_ok {m m' : Memory} {p : Word} {bytes : List Byte} :
    m.write p bytes = .ok m' ↔ ∃ loc, m.checkWrite p bytes.length = .ok loc ∧
      (m.region loc).2 + bytes.length ≤ (m.region loc).1.size ∧
      m' = m.setRegion loc ((m.region loc).1.write (m.region loc).2 bytes) := by
  unfold write
  cases checked : m.checkWrite p bytes.length with
  | error err =>
    constructor
    · intro e
      cases e
    · rintro ⟨loc, h, -⟩
      cases h
  | ok loc =>
    change (if (m.region loc).2 + bytes.length ≤ (m.region loc).1.size then
      Except.ok (m.setRegion loc ((m.region loc).1.write (m.region loc).2 bytes))
      else Except.error (WriteError.invalid p)) = _ ↔ _
    by_cases fits : (m.region loc).2 + bytes.length ≤ (m.region loc).1.size
    · rw [if_pos fits]
      constructor
      · intro e
        cases e
        exact ⟨loc, rfl, fits, rfl⟩
      · rintro ⟨_, h, -, rfl⟩
        cases h
        rfl
    · rw [if_neg fits]
      constructor
      · intro e
        cases e
      · rintro ⟨_, h, k, -⟩
        cases h
        exact absurd k fits

/-- `write_u32`. -/
def writeU32 (p v : Word) : Except WriteError Memory := m.write p (leBytes v)

/-- `cstr`: the NUL-terminated bytes at address `p`, up to the end of the region. -/
def cstr (p : Word) : Option (List Byte) :=
  match m.locate p 1 with
  | none => none
  | some (.s o) => some (cstrAt m.s o)
  | some (.e o e) =>
    -- A string inside an entity ends with that entity's fields.
    let finish := e * m.stride + m.fieldBytes
    if o ≤ finish ∧ finish ≤ m.e.size then some (cstrAt (m.e.extract o (finish - o)) 0) else none
  | some (.h o) => some (cstrAt m.heap.data o)

/-- `g`: reads a word from region S by byte offset. -/
def g (off : Nat) : Word := (u32At m.s off).getD 0

/-- `set_g`: writes a word to region S by byte offset; a write out of range is dropped. -/
def setG (off : Nat) (v : Word) : Memory := { m with s := putU32 m.s off v }

/-- The words of `vs` written from `off` on, in order. -/
def setGs (off : Nat) (vs : List Word) : Memory :=
  (vs.zipIdx).foldl (fun m (v, k) => m.setG (off + 4 * k) v) m

/-- `copy_g`: copies `words` words within region S, in increasing order. -/
def copyG (src dst words : Nat) : Memory :=
  (List.range words).foldl (fun m i => m.setG (dst + 4 * i) (m.g (src + 4 * i))) m

/-- `move_s`: moves a block of bytes within region S; `none` if out of range. -/
def moveS (src dst len : Nat) : Option Memory :=
  if src + len > m.s.size ∨ dst + len > m.s.size then none
  else some { m with s := m.s.copyWithin src dst len }

/-- `ent_word`. -/
def entWord (off : Nat) : Word := (u32At m.e off).getD 0

/-- `set_ent_word`. -/
def setEntWord (off : Nat) (v : Word) : Memory := { m with e := putU32 m.e off v }

/-! ## Entities -/

/-- `grow_to`: adds entity slots up to and including `e`, zeroed. -/
def growTo (e : Nat) : Memory :=
  let bytes := (e + 1) * m.stride
  { m with
    e := if bytes > m.e.size then m.e.resize bytes 0 else m.e
    slots := m.slots ++ List.replicate (e + 1 - m.slots.length) .unused }

/-- `clear_entity`: zeroes all of entity `e`'s fields. -/
def clearEntity (e : Nat) : Memory :=
  { m with e := m.e.write (e * m.stride) (List.replicate m.stride 0) }

/-- Changes the slot of entity `e`, if there is one. -/
def modifySlot (e : Nat) (f : EntSlot → EntSlot) : Memory := { m with slots := m.slots.modify e f }

/-- `init_world`: creates the world entity. -/
def initWorld : Memory := ((m.growTo 0).clearEntity 0).modifySlot 0 fun _ => ⟨true, false, 0, 1⟩

/-- Whether `spawn` may reuse a slot: freed more than half a second ago, or during the first two
seconds. -/
def reusable (F : FloatOps) (now : DWord) (slot : EntSlot) : Bool :=
  !slot.inUse && (F.ltD slot.freetime 0x4000000000000000 ||
    F.ltD 0x3FE0000000000000 (F.subD now slot.freetime))

/-- The first slot from `start` on that satisfies `p`. -/
def findSlot (start : Nat) (p : EntSlot → Bool) : Option Nat :=
  ((m.slots.drop start).findIdx? p).map (· + start)

/-- Takes slot `e` into use. -/
def takeSlot (e : Nat) : Memory :=
  (m.clearEntity e).modifySlot e fun slot =>
    { slot with inUse := true, guarded := false, serial := wrappingAdd slot.serial 1 }

/-- `spawn`: a reusable slot, else a new one, else any free one. -/
def spawn (F : FloatOps) (now : DWord) (first : Nat) : Except ErrorKind (Nat × Memory) :=
  let start := min first m.slots.length
  match m.findSlot start (reusable F now) with
  | some e => .ok (e, m.takeSlot e)
  | none =>
    -- Growing starts at the first spawnable slot, so reserved slots are never handed out.
    let grow := max m.numEdicts first
    if grow < m.maxEdicts then .ok (grow, (m.growTo grow).takeSlot grow)
    else
      match m.findSlot start (fun slot => !slot.inUse) with
      | some e => .ok (e, m.takeSlot e)
      | none => .error .noFreeEdicts

/-- `claim`: takes slot `e` into use whether or not it is free, growing the table to reach it. -/
def claim (e : Nat) : Except ErrorKind Memory :=
  if e = 0 ∨ e ≥ m.maxEdicts then .error .noFreeEdicts
  else
    let m := if e ≥ m.slots.length then m.growTo e else m
    .ok ((m.takeSlot e).modifySlot e fun slot => { slot with freetime := 0 })

/-- Zeroes field `word` of entity `e`, if there is one. -/
def clearField (e word : Nat) : Memory :=
  match m.fieldOffset e word 1 with
  | some off => m.setEntWord off 0
  | none => m

/-- `remove`: frees entity `e`, zeroing the given field words. -/
def remove (e : Nat) (now : DWord) (instant : Bool) (clear : List Nat) :
    Except WarningKind Memory :=
  if e = 0 then .error (.builtin "Unable to remove the world")
  else
    match m.slots[e]? with
    | none => .error (.badEntity (BitVec.ofNat 32 e))
    | some slot =>
      if !slot.inUse then .error (.builtin ("entity " ++ toString e ++ " is already free"))
      else if slot.guarded then .error (.readOnlyEntity (BitVec.ofNat 32 e))
      else
        let m := clear.foldl (fun m word => m.clearField e word) m
        .ok (m.modifySlot e fun slot =>
          { slot with inUse := false, freetime := if instant then 0 else now })

end Memory

end Qcvm

import Qcvm.Error

/-!
# Dynamic strings

`vm/strings.rs`: temp strings in a slot table, and host-interned strings. A string reference is
classified by its top two bits. The index map of interned strings is the first position of the text
in the table, which is what the code's hash map holds. Host memory is taken to be available.
-/

namespace Qcvm

open Lib

/-- Tag of temp-string references. -/
def tempTag : Word := 0x80000000

/-- Tag of host-interned string references. -/
def staticTag : Word := 0xC0000000

/-- Mask for the index part of a tagged reference. -/
def indexMask : Word := 0x3FFFFFFF

/-- Mask selecting the tag bits. -/
def tagMask : Word := 0xC0000000

/-- Temp strings grow when QuakeC writes past their end, up to this size. -/
def maxTempGrowth : Nat := 1048576

/-- Initial temp-slot table size. -/
def initialSlots : Nat := 1024

/-- What a string reference designates. -/
inductive StrKind where
  | linear (address : Word)
  | temp (slot : Nat)
  | static (index : Nat)
  deriving DecidableEq, Repr

/-- `classify`. -/
def classify (r : Word) : StrKind :=
  if r &&& tagMask = tempTag then .temp (r &&& indexMask).toNat
  else if r &&& tagMask = staticTag then .static (r &&& indexMask).toNat
  else .linear r

/-- The temp-string slot table plus host-interned strings. -/
structure Strings where
  slots : List (Option (Arr Byte))
  capacity : Nat
  cursor : Nat
  live : Nat
  bytes : Nat
  maxSlots : Nat
  maxBytes : Nat
  statics : List (List Byte)
  pins : List (Nat × Nat)

/-- `until_nul`. -/
def untilNul (data : Arr Byte) : List Byte := cstrAt data 0

namespace Strings

/-- `Strings::new`. -/
def new (maxSlots maxBytes : Nat) : Strings where
  slots := []
  capacity := min initialSlots (max maxSlots 1)
  cursor := 0
  live := 0
  bytes := 0
  maxSlots := min maxSlots indexMask.toNat
  maxBytes := maxBytes
  statics := []
  pins := []

/-- `Strings::room`. -/
def room (s : Strings) : Nat := s.maxBytes - s.bytes

/-- The size of a text with its terminator and padding. -/
def paddedSize (len : Nat) : Nat := (len + 4) / 4 * 4

/-- `Strings::fits`. -/
def fits (s : Strings) (len : Nat) : Bool := decide (paddedSize len ≤ s.room)

/-- The table after `free_slot` has made room: twice as large and `initialSlots` more when all
slots are live, within the limit. -/
def grow (s : Strings) : Option Strings :=
  let grown := min (s.capacity * 2 + initialSlots) s.maxSlots
  if s.live < s.capacity then some s
  else if grown ≤ s.capacity then none
  else some { s with capacity := grown }

/-- The slots filled up to the capacity. -/
def fill (s : Strings) : Strings :=
  { s with slots := s.slots ++ List.replicate (s.capacity - s.slots.length) none }

/-- The first free slot from the cursor on, wrapping around. -/
def findFree (s : Strings) : Option Nat :=
  let start := s.cursor % s.capacity
  ((List.range s.capacity).drop start ++ (List.range s.capacity).take start).find? fun i =>
    s.slots[i]?.any Option.isNone

/-- `Strings::alloc_raw`: stores padded, NUL-terminated data; the table may have grown even when
there is no slot. -/
def allocRaw (s : Strings) (data : Arr Byte) : Except Resource Word × Strings :=
  if s.bytes + data.size > s.maxBytes then (.error .tempStrings, s)
  else
    match s.grow.map fill with
    | none => (.error .tempStrings, s)
    | some s =>
      match s.findFree with
      | none => (.error .tempStrings, s)
      | some slot =>
        (.ok (BitVec.ofNat 32 slot ||| tempTag),
          { s with
            slots := s.slots.set slot (some data)
            live := s.live + 1
            bytes := s.bytes + data.size
            cursor := slot + 1 })

/-- `Strings::alloc`: stores `text` as a new temp string. -/
def alloc (s : Strings) (text : List Byte) : Except Resource Word × Strings :=
  if s.fits text.length then s.allocRaw ((Arr.ofList text).resize (paddedSize text.length) 0)
  else (.error .tempStrings, s)

/-- `Strings::temp_raw`: the raw slot data. -/
def tempRaw (s : Strings) (slot : Nat) : Option (Arr Byte) := s.slots[slot]?.join

/-- `Strings::temp_raw_mut`: the slot data grown with zeros to at least `len` bytes, and the table
that holds it. -/
def tempRawMut (s : Strings) (slot len : Nat) : Option (Arr Byte × Strings) := do
  let data ← s.tempRaw slot
  if len ≤ data.size then return (data, s)
  if len > maxTempGrowth then none
  let grown := (len + 3) / 4 * 4
  let bytes := s.bytes + (grown - data.size)
  if bytes > s.maxBytes then none
  let data := data.resize grown 0
  return (data, { s with slots := s.slots.set slot (some data), bytes := bytes })

/-- The index `intern` gives the text at position `i` of the table. -/
def staticIndex (i : Nat) : Word :=
  (if i ≤ u32Max then BitVec.ofNat 32 i else indexMask) &&& indexMask

/-- `Strings::intern`. -/
def intern (s : Strings) (text : List Byte) : Word × Strings :=
  match s.statics.idxOf? text with
  | some i => (staticIndex i ||| staticTag, s)
  | none => (staticIndex s.statics.length ||| staticTag, { s with statics := s.statics ++ [text] })

/-- `Strings::static_str`. -/
def staticStr (s : Strings) (index : Nat) : Option (List Byte) := s.statics[index]?

/-- `Strings::pin`. -/
def pin (s : Strings) (r : Word) : Strings :=
  match classify r with
  | .temp slot =>
    match s.pins.lookup slot with
    | none => { s with pins := (slot, 1) :: s.pins }
    | some n =>
      { s with pins := (slot, saturatingAdd n 1) :: s.pins.filter fun p => p.1 != slot }
  | _ => s

/-- `Strings::unpin`. -/
def unpin (s : Strings) (r : Word) : Strings :=
  match classify r with
  | .temp slot =>
    match s.pins.lookup slot with
    | none => s
    | some n =>
      let others := s.pins.filter fun p => p.1 != slot
      { s with pins := if n - 1 = 0 then others else (slot, n - 1) :: others }
  | _ => s

/-- `Strings::wants_collection`. -/
def wantsCollection (s : Strings) : Bool :=
  decide (s.live ≥ s.capacity / 2) && decide (s.cursor ≥ s.capacity / 2)

/-- Whether an aligned word of `region` refers to temp slot `slot`. -/
def refersTo (region : Arr Byte) (slot : Nat) : Bool :=
  (List.range (region.size / 4)).any fun i =>
    let w := wordAt region (4 * i)
    w &&& tagMask == tempTag && (w &&& indexMask).toNat == slot

/-- Whether a collection keeps `slot`. -/
def marked (s : Strings) (roots : List (Arr Byte)) (slot : Nat) : Bool :=
  roots.any (refersTo · slot) || (s.pins.lookup slot).isSome

/-- `Strings::collect`: drops every temp string not referenced from `roots` or pinned. -/
def collect (s : Strings) (roots : List (Arr Byte)) : Strings :=
  let slots := s.slots.mapIdx fun i data => if s.marked roots i then data else none
  let freed := (s.slots.mapIdx fun i data =>
    if s.marked roots i then none else data).filterMap id
  let live := s.live - freed.length
  { s with
    slots := slots
    bytes := s.bytes - (freed.map Arr.size).sum
    live := live
    cursor := 0
    capacity :=
      if live ≥ s.capacity / 2 then min (s.capacity * 2) (max s.maxSlots 1) else s.capacity }

end Strings

end Qcvm

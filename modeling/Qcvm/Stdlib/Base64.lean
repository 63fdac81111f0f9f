import Qcvm.Interp.FastPath
import Qcvm.Progs.Load
import Qcvm.Stdlib.Json
import Qcvm.Vm.Allocator

/-!
# Base64

`base64_encode` and `base64_decode` of `stdlib/memory.rs`, and the builtin that decodes into a heap
block. The decoder takes four symbols a round; its `room` falls by three bytes a round, so it stops
before it fills the estimate of the decoded size, whatever the text is.
-/

namespace Qcvm.Stdlib

open Lib

/-- `BASE64`. -/
def base64Symbols : List Byte :=
  ascii "ABCDEFGHIJKLMNOPQRSTUVWXYZabcdefghijklmnopqrstuvwxyz0123456789+/"

/-- `=`. -/
def padding : Byte := 61

/-- `sym`: the symbol for six bits of a group. -/
def base64Symbol (v shift : Nat) : Byte := base64Symbols.getD (v / 2 ^ shift % 64) 65

/-- The 24 bits of a chunk; a byte that is not there counts as 0. -/
def base64Bits (b0 b1 b2 : Byte) : Nat := b0.toNat * 2 ^ 16 + b1.toNat * 2 ^ 8 + b2.toNat

/-- `base64_encode`. -/
def base64Encode : List Byte → List Byte
  | [] => []
  | [b0] =>
    let v := base64Bits b0 0 0
    [base64Symbol v 18, base64Symbol v 12, padding, padding]
  | [b0, b1] =>
    let v := base64Bits b0 b1 0
    [base64Symbol v 18, base64Symbol v 12, base64Symbol v 6, padding]
  | b0 :: b1 :: b2 :: data =>
    let v := base64Bits b0 b1 b2
    base64Symbol v 18 :: base64Symbol v 12 :: base64Symbol v 6 :: base64Symbol v 0 ::
      base64Encode data

/-- `base64_value`. -/
def base64Value (c : Byte) : Nat :=
  if 65 ≤ c ∧ c ≤ 90 then (c - 65).toNat
  else if 97 ≤ c ∧ c ≤ 122 then (c - 97 + 26).toNat
  else if 48 ≤ c ∧ c ≤ 57 then (c - 48 + 52).toNat
  else if c = 43 ∨ c = 45 then 62
  else if c = 47 ∨ c = 95 then 63
  else 0

/-- A control character that the decoder skips; a NUL is none. -/
def isControl (c : Byte) : Bool := 1 ≤ c && c < 32

/-- `skip_ctrl`. -/
def skipCtrl (s : List Byte) : List Byte := s.dropWhile isControl

/-- A byte of the 24 bits that a group decodes to. -/
def bitsByte (v shift : Nat) : Byte := BitVec.ofNat 8 (v / 2 ^ shift)

/-- The loop of `base64_decode` on the rest of the text. The symbols of a group share no bits of `v`,
which makes `|=` a sum. -/
def base64Decode (s : List Byte) (room : Nat) : List Byte :=
  if room ≤ 1 then []
  else
    match skipCtrl s with
    | [] => []
    | c0 :: s =>
      let v := base64Value c0 * 2 ^ 18
      match skipCtrl s with
      | [] => []
      | c1 :: s =>
        let v := v + base64Value c1 * 2 ^ 12
        bitsByte v 16 ::
          match s with
          | [] => []
          | c2 :: s =>
            if c2 = padding ∨ room < 2 then []
            else
              let v := v + base64Value c2 * 2 ^ 6
              bitsByte v 8 ::
                match s with
                | [] => []
                | c3 :: s =>
                  if c3 = padding ∨ room < 3 then []
                  else
                    let v := v + base64Value c3
                    bitsByte v 0 :: base64Decode s (room - 3)
termination_by room

/-- `base64_capacity`. -/
def base64Capacity (len : Nat) : Nat := (len + 3) / 4 * 3 + 1

/-- What `base64decode` returns: the block with the length of the data, or null with a soft error. -/
inductive Base64Result where
  | block (p size : Nat)
  | outOfMemory
  deriving DecidableEq, Repr

/-- `heap_write`. -/
def heapWrite (core : Core) (p : Nat) (bytes : List Byte) : Core :=
  if p < core.mem.hBase then core
  else
    let heap := core.mem.heap
    { core with mem := { core.mem with
        heap := { heap with data := heap.data.write (p - core.mem.hBase) bytes } } }

/-- `base64decode`, of the text of its argument. -/
def base64decode (core : Core) (s : List Byte) : Base64Result × Core :=
  let cap := base64Capacity s.length
  let data := base64Decode s cap
  match (if cap ≤ u32Max then heapAlloc core cap else none) with
  | none => (.outOfMemory, core)
  | some (p, core) => (.block p data.length, heapWrite core p data)

/-! ## The round trip -/

variable {s data : List Byte} {c0 c1 c2 c3 : Byte} {room : Nat}

lemma skipCtrl_of_plain (plain : isControl c0 = false) : skipCtrl (c0 :: s) = c0 :: s :=
  List.dropWhile_cons_of_neg (by rw [plain]; exact Bool.false_ne_true)

/-- A group of four symbols gives three bytes. -/
lemma base64Decode_four (plain0 : isControl c0 = false) (plain1 : isControl c1 = false)
    (symbol2 : c2 ≠ padding) (symbol3 : c3 ≠ padding) :
    let v := base64Value c0 * 2 ^ 18 + base64Value c1 * 2 ^ 12
    base64Decode (c0 :: c1 :: c2 :: c3 :: s) (room + 4)
      = bitsByte v 16 :: bitsByte (v + base64Value c2 * 2 ^ 6) 8 ::
        bitsByte (v + base64Value c2 * 2 ^ 6 + base64Value c3) 0 :: base64Decode s (room + 1) := by
  intro v
  rw [base64Decode.eq_1 (c0 :: c1 :: c2 :: c3 :: s)]
  rw [if_neg (by omega), skipCtrl_of_plain plain0]
  dsimp only
  rw [skipCtrl_of_plain plain1]
  dsimp only
  rw [if_neg (by rintro (pads | few); exacts [symbol2 pads, by omega])]
  rw [if_neg (by rintro (pads | few); exacts [symbol3 pads, by omega])]
  rfl

/-- Padding in the third place ends the data after a byte. -/
lemma base64Decode_two (plain0 : isControl c0 = false) (plain1 : isControl c1 = false) :
    base64Decode (c0 :: c1 :: padding :: s) (room + 4)
      = [bitsByte (base64Value c0 * 2 ^ 18 + base64Value c1 * 2 ^ 12) 16] := by
  rw [base64Decode, if_neg (by omega), skipCtrl_of_plain plain0]
  dsimp only
  rw [skipCtrl_of_plain plain1]
  dsimp only
  rw [if_pos (.inl rfl)]

/-- Padding in the fourth place ends it after two. -/
lemma base64Decode_three (plain0 : isControl c0 = false) (plain1 : isControl c1 = false)
    (symbol2 : c2 ≠ padding) :
    let v := base64Value c0 * 2 ^ 18 + base64Value c1 * 2 ^ 12
    base64Decode (c0 :: c1 :: c2 :: padding :: s) (room + 4)
      = [bitsByte v 16, bitsByte (v + base64Value c2 * 2 ^ 6) 8] := by
  intro v
  rw [base64Decode, if_neg (by omega), skipCtrl_of_plain plain0]
  dsimp only
  rw [skipCtrl_of_plain plain1]
  dsimp only
  rw [if_neg (by rintro (pads | few); exacts [symbol2 pads, by omega]), if_pos (.inl rfl)]

/-- A symbol stands for its number, and is neither skipped nor the padding. -/
lemma base64Symbols_read : ∀ k < 64, base64Value (base64Symbols.getD k 65) = k ∧
    isControl (base64Symbols.getD k 65) = false ∧ base64Symbols.getD k 65 ≠ padding := by
  decide +kernel

lemma base64Symbol_read (v shift : Nat) : base64Value (base64Symbol v shift) = v / 2 ^ shift % 64 ∧
    isControl (base64Symbol v shift) = false ∧ base64Symbol v shift ≠ padding :=
  base64Symbols_read _ (Nat.mod_lt _ (by decide))

/-- The first byte of a group comes from its first two symbols, and so on. -/
lemma bitsByte_bits (b0 b1 b2 : Byte) :
    let v := base64Bits b0 b1 b2
    let first := v / 2 ^ 18 % 64 * 2 ^ 18 + v / 2 ^ 12 % 64 * 2 ^ 12
    bitsByte first 16 = b0 ∧ bitsByte (first + v / 2 ^ 6 % 64 * 2 ^ 6) 8 = b1 ∧
      bitsByte (first + v / 2 ^ 6 % 64 * 2 ^ 6 + v / 2 ^ 0 % 64) 0 = b2 := by
  have lt0 := b0.isLt
  have lt1 := b1.isLt
  have lt2 := b2.isLt
  have byte {n : Nat} {b : Byte} (e : n % 2 ^ 8 = b.toNat) : BitVec.ofNat 8 n = b :=
    BitVec.eq_of_toNat_eq (by rw [BitVec.toNat_ofNat, e])
  unfold bitsByte base64Bits
  refine ⟨byte ?_, byte ?_, byte ?_⟩
  · omega
  · omega
  · omega

/-- A whole group decodes to its bytes, and leaves room for the others. -/
lemma base64Decode_whole (b0 b1 b2 : Byte) (data : List Byte) (room : Nat) :
    base64Decode (base64Encode (b0 :: b1 :: b2 :: data)) (room + 4)
      = b0 :: b1 :: b2 :: base64Decode (base64Encode data) (room + 1) := by
  obtain ⟨byte0, byte1, byte2⟩ := bitsByte_bits b0 b1 b2
  have read (shift : Nat) := base64Symbol_read (base64Bits b0 b1 b2) shift
  rw [base64Encode]
  rw [base64Decode_four (read 18).2.1 (read 12).2.1 (read 6).2.2 (read 0).2.2]
  rw [(read 18).1, (read 12).1, (read 6).1, (read 0).1, byte0, byte1, byte2]

/-- The last group of one or two bytes ends at its padding. -/
lemma base64Decode_unfinished (b0 b1 : Byte) (room : Nat) :
    base64Decode (base64Encode [b0]) (room + 4) = [b0] ∧
      base64Decode (base64Encode [b0, b1]) (room + 4) = [b0, b1] := by
  constructor
  · obtain ⟨byte0, -⟩ := bitsByte_bits b0 0 0
    have read (shift : Nat) := base64Symbol_read (base64Bits b0 0 0) shift
    rw [base64Encode, base64Decode_two (read 18).2.1 (read 12).2.1, (read 18).1, (read 12).1, byte0]
  · obtain ⟨byte0, byte1, -⟩ := bitsByte_bits b0 b1 0
    have read (shift : Nat) := base64Symbol_read (base64Bits b0 b1 0) shift
    rw [base64Encode, base64Decode_three (read 18).2.1 (read 12).2.1 (read 6).2.2, (read 18).1,
      (read 12).1, (read 6).1, byte0, byte1]

/-- Four symbols for each group of three bytes. -/
lemma length_base64Encode (data : List Byte) :
    (base64Encode data).length = (data.length + 2) / 3 * 4 := by
  induction data using base64Encode.induct with
  | case1 => rfl
  | case2 b0 => simp [base64Encode]
  | case3 b0 b1 => simp [base64Encode]
  | case4 b0 b1 b2 data ih =>
    simp only [base64Encode, List.length_cons, ih]
    omega

/-- Decoding needs room for the groups only. -/
lemma base64Decode_encode (data : List Byte) (room : Nat) (fits : (data.length + 2) / 3 * 3 ≤ room) :
    base64Decode (base64Encode data) (room + 1) = data := by
  induction data using base64Encode.induct generalizing room with
  | case1 =>
    rw [base64Encode, base64Decode]
    split
    next => rfl
    next => rfl
  | case2 b0 =>
    obtain ⟨more, rfl⟩ : ∃ more, room = more + 3 := ⟨room - 3, by simp at fits; omega⟩
    exact (base64Decode_unfinished b0 0 more).1
  | case3 b0 b1 =>
    obtain ⟨more, rfl⟩ : ∃ more, room = more + 3 := ⟨room - 3, by simp at fits; omega⟩
    exact (base64Decode_unfinished b0 b1 more).2
  | case4 b0 b1 b2 data ih =>
    rw [List.length_cons, List.length_cons, List.length_cons] at fits
    obtain ⟨more, rfl⟩ : ∃ more, room = more + 3 := ⟨room - 3, by omega⟩
    rw [base64Decode_whole, ih more (by omega)]

/-! ## The room -/

/-- A round writes three bytes at most, and takes three from the room. -/
lemma length_base64Decode (s : List Byte) (groups : Nat) :
    (base64Decode s (groups * 3 + 1)).length ≤ groups * 3 := by
  induction groups generalizing s with
  | zero =>
    rw [base64Decode, if_pos (Nat.le_refl 1)]
    exact Nat.le_refl 0
  | succ groups ih =>
    have rest (s : List Byte) : (base64Decode s ((groups + 1) * 3 + 1 - 3)).length ≤ groups * 3 := by
      have fewer : (groups + 1) * 3 + 1 - 3 = groups * 3 + 1 := by omega
      rw [fewer]
      exact ih s
    rw [base64Decode, if_neg (by omega)]
    split
    next => exact Nat.zero_le _
    next c0 s _ =>
      dsimp only
      split
      next => exact Nat.zero_le _
      next c1 s _ =>
        rw [List.length_cons]
        split
        next => exact Nat.le_add_left 1 _
        next c2 s _ =>
          split
          next => exact Nat.le_add_left 1 _
          next =>
            rw [List.length_cons]
            split
            next =>
              rw [List.length_nil]
              omega
            next c3 s _ =>
              split
              next =>
                rw [List.length_nil]
                omega
              next =>
                have few := rest s
                rw [List.length_cons]
                omega

/-- The data and a NUL fit the estimate. -/
lemma length_lt_capacity (s : List Byte) :
    (base64Decode s (base64Capacity s.length)).length < base64Capacity s.length :=
  Nat.lt_succ_of_le (length_base64Decode s _)

/-! ## The block -/

/-- `base64decode` leaves its data in a block of the heap, with a NUL after it. -/
structure StoresText (core : Core) (p : Nat) (data : List Byte) : Prop where
  inHeap : core.mem.hBase ≤ p
  used : ∃ size n, (p - core.mem.hBase, (size, n)) ∈ core.mem.heap.used ∧ data.length < n ∧ n ≤ size
  bytes : ∀ i < data.length, core.mem.heap.data.get (p - core.mem.hBase + i) = data.getD i 0
  terminated : core.mem.heap.data.get (p - core.mem.hBase + data.length) = 0

/-- What is written to a fresh block is there, with a NUL after it. -/
lemma storesText_heapWrite {core core' : Core} {n p : Nat} (sound : core.mem.heap.Sound)
    (allocated : heapAlloc core n = some (p, core')) (fits : data.length < n) :
    StoresText (heapWrite core' p data) p data := by
  obtain ⟨off, taken, allocated⟩ := Option.bind_eq_some_iff.mp allocated
  obtain ⟨address, sum, made⟩ := Option.map_eq_some_iff.mp allocated
  obtain ⟨-, rfl⟩ := checkedAdd_eq_some.mp sum
  cases made
  obtain ⟨size, block, -⟩ := sound.of_alloc taken
  obtain ⟨rounded, -⟩ := roundUp_eq_some block.rounded
  have inside := block.inside
  have start : core.mem.hBase + off - core.mem.hBase = off := Nat.add_sub_cancel_left _ _
  unfold heapWrite
  dsimp only
  rw [if_neg (Nat.not_lt.mpr (Nat.le_add_right core.mem.hBase off)), start]
  refine ⟨Nat.le_add_right _ _, ?_, ?_, ?_⟩
  · refine ⟨size, n, ?_, fits, rounded⟩
    rw [start]
    exact (block.used _).mpr (.inl rfl)
  · intro i lt
    rw [start]
    dsimp only
    rw [Arr.get_write_of_inside (by omega) (by omega) (by omega), Nat.add_sub_cancel_left]
    rfl
  · rw [start]
    dsimp only
    rw [Arr.get_write_of_outside (by omega)]
    exact block.zero _ ⟨by omega, by dsimp only; omega⟩

/-- Base64 reads back what it writes, within the estimate; any text decodes to less than the estimate,
and `base64decode` stores all of it with a NUL after it. -/
theorem base64_roundTrip :
    (∀ data, base64Decode (base64Encode data) (base64Capacity (base64Encode data).length) = data) ∧
      (∀ s, (base64Decode s (base64Capacity s.length)).length < base64Capacity s.length) ∧
      ∀ (core core' : Core) (s : List Byte) (p n : Nat), core.mem.heap.Sound →
        base64decode core s = (.block p n, core') →
        n = (base64Decode s (base64Capacity s.length)).length ∧
          StoresText core' p (base64Decode s (base64Capacity s.length)) := by
  refine ⟨fun data => ?_, length_lt_capacity, fun core core' s p n sound e => ?_⟩
  · refine base64Decode_encode data _ ?_
    rw [length_base64Encode]
    omega
  · unfold base64decode at e
    dsimp only at e
    split at e
    next => cases e
    next p' core'' allocated =>
      cases e
      split at allocated
      next => exact ⟨rfl, storesText_heapWrite sound allocated (length_lt_capacity s)⟩
      next => cases allocated

/-- A core with a heap of 64 bytes. -/
def heapCore : Core := { Core.bare with mem := { Core.bare.mem with heap := .new 64 } }

theorem base64_roundTrip_fo : ∃ core' p n,
    base64decode heapCore (ascii "Zm8=") = (.block p n, core') ∧
      n = (base64Decode (ascii "Zm8=") (base64Capacity (ascii "Zm8=").length)).length ∧
        StoresText core' p (base64Decode (ascii "Zm8=") (base64Capacity (ascii "Zm8=").length)) := by
  have decoded : (base64decode heapCore (ascii "Zm8=")).1 ≠ .outOfMemory := by decide +kernel
  cases e : base64decode heapCore (ascii "Zm8=") with
  | mk r core' =>
    rw [e] at decoded
    cases r with
    | outOfMemory => exact absurd rfl decoded
    | block p n =>
      exact ⟨core', p, n, rfl,
        base64_roundTrip.2.2 heapCore core' _ p n (Heap.sound_new 64 (by decide)) e⟩

end Qcvm.Stdlib

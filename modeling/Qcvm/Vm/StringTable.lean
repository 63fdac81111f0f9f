import Mathlib.Algebra.BigOperators.Group.List.Basic
import Mathlib.Data.List.Induction
import Qcvm.Vm.Host

/-!
# The temp-string table

What holds of the table after any sequence of its operations (`Strings.Exact`): the counters are the
number and the total size of the occupied slots, within their limits. From it, an allocation takes a
slot that no live string has or changes nothing, and a collection drops the strings that are neither
pinned nor named by an aligned word of the roots, and nothing else.
-/

namespace Qcvm

open Lib

/-- The reference to a temp-string slot. -/
def tempHandle (slot : Nat) : Word := BitVec.ofNat 32 slot ||| tempTag

/-- A small index is its own low part. -/
lemma and_indexMask {v : Word} (h : v.toNat < 2 ^ 30) : v &&& indexMask = v := by
  apply BitVec.eq_of_toNat_eq
  rw [BitVec.toNat_and, show indexMask.toNat = 2 ^ 30 - 1 from rfl, Nat.and_two_pow_sub_one_eq_mod,
    Nat.mod_eq_of_lt h]

/-- The words with the temp tag are the handles of their low 30 bits. -/
lemma eq_tempHandle_iff {slot : Nat} (h : slot < 2 ^ 30) (w : Word) :
    w = tempHandle slot ↔ w &&& tagMask = tempTag ∧ (w &&& indexMask).toNat = slot := by
  have toNat : (BitVec.ofNat 32 slot).toNat = slot := by
    rw [BitVec.toNat_ofNat, Nat.mod_eq_of_lt (by omega)]
  have low : BitVec.ofNat 32 slot &&& indexMask = BitVec.ofNat 32 slot :=
    and_indexMask (by rw [toNat]; exact h)
  constructor
  · rintro rfl
    have tag : BitVec.ofNat 32 slot &&& tagMask = 0#32 := by
      rw [← low, BitVec.and_assoc, show indexMask &&& tagMask = 0#32 from rfl, BitVec.and_zero]
    constructor
    · rw [tempHandle, BitVec.and_or_distrib_right, tag, show tempTag &&& tagMask = tempTag from rfl,
        BitVec.zero_or]
    · rw [tempHandle, BitVec.and_or_distrib_right, low, show tempTag &&& indexMask = 0#32 from rfl,
        BitVec.or_zero, toNat]
  · rintro ⟨tag, index⟩
    have split : w = (w &&& tagMask) ||| (w &&& indexMask) := by
      rw [← BitVec.and_or_distrib_left, show tagMask ||| indexMask = BitVec.allOnes 32 from rfl,
        BitVec.and_allOnes]
    rw [split, tag, tempHandle, BitVec.or_comm, ← index, BitVec.ofNat_toNat, BitVec.setWidth_eq]

/-- Different slots have different references. -/
lemma tempHandle_injective {a b : Nat} (ha : a < 2 ^ 30) (hb : b < 2 ^ 30)
    (e : tempHandle a = tempHandle b) : a = b :=
  ((eq_tempHandle_iff ha _).1 rfl).2.symm.trans ((eq_tempHandle_iff hb _).1 e).2

/-- The size of a slot's data. -/
def slotSize (data : Option (Arr Byte)) : Nat := data.elim 0 Arr.size

/-- Setting a slot exchanges its size in the sum. -/
lemma sum_slotSize_set {slots : List (Option (Arr Byte))} {i : Nat} {old : Option (Arr Byte)}
    (h : slots[i]? = some old) (data : Option (Arr Byte)) :
    ((slots.set i data).map slotSize).sum + slotSize old =
      (slots.map slotSize).sum + slotSize data := by
  induction slots generalizing i with
  | nil => simp at h
  | cons head rest ih =>
    cases i with
    | zero =>
      simp only [List.getElem?_cons_zero, Option.some.injEq] at h
      subst h
      simp only [List.set_cons_zero, List.map_cons, List.sum_cons]
      omega
    | succ i =>
      have k := ih h
      simp only [List.set_cons_succ, List.map_cons, List.sum_cons]
      omega

/-- Setting a slot exchanges it in the count of the live ones. -/
lemma countP_set_of_getElem? {slots : List (Option (Arr Byte))} {i : Nat}
    {old : Option (Arr Byte)} (h : slots[i]? = some old) (data : Option (Arr Byte)) :
    (slots.set i data).countP Option.isSome + old.isSome.toNat =
      slots.countP Option.isSome + data.isSome.toNat := by
  induction slots generalizing i with
  | nil => simp at h
  | cons head rest ih =>
    cases i with
    | zero =>
      simp only [List.getElem?_cons_zero, Option.some.injEq] at h
      subst h
      cases head <;> cases data <;> simp
    | succ i =>
      have k := ih h
      simp only [List.set_cons_succ, List.countP_cons]
      omega

/-- The slots a sweep leaves. -/
def kept (keep : Nat → Bool) (slots : List (Option (Arr Byte))) : List (Option (Arr Byte)) :=
  slots.mapIdx fun i data => if keep i then data else none

/-- The strings a sweep drops. -/
def freed (keep : Nat → Bool) (slots : List (Option (Arr Byte))) : List (Arr Byte) :=
  (slots.mapIdx fun i data => if keep i then none else data).filterMap id

/-- What a sweep leaves of a slot and the others. -/
lemma kept_cons (keep : Nat → Bool) (head : Option (Arr Byte)) (rest : List (Option (Arr Byte))) :
    kept keep (head :: rest) =
      (if keep 0 then head else none) :: kept (fun i => keep (i + 1)) rest := by
  rw [kept, List.mapIdx_cons]
  rfl

/-- What a sweep drops of a slot and the others. -/
lemma freed_cons (keep : Nat → Bool) (head : Option (Arr Byte)) (rest : List (Option (Arr Byte))) :
    freed keep (head :: rest) =
      (if keep 0 then none else head).toList ++ freed (fun i => keep (i + 1)) rest := by
  rw [freed, List.mapIdx_cons]
  cases h : (if keep 0 then none else head) with
  | none => rw [List.filterMap_cons_none rfl]; rfl
  | some data => rw [List.filterMap_cons_some (rfl : id (some data) = some data)]; rfl

/-- What a sweep leaves and what it drops make up the table. -/
lemma sweep_counts (keep : Nat → Bool) (slots : List (Option (Arr Byte))) :
    (kept keep slots).countP Option.isSome + (freed keep slots).length =
        slots.countP Option.isSome ∧
      ((kept keep slots).map slotSize).sum + ((freed keep slots).map Arr.size).sum =
        (slots.map slotSize).sum := by
  induction slots generalizing keep with
  | nil => simp [kept, freed]
  | cons head rest ih =>
    obtain ⟨count, sum⟩ := ih fun i => keep (i + 1)
    rw [kept_cons, freed_cons]
    cases head <;> cases keep 0 <;>
      simp [slotSize] at count sum ⊢ <;> omega

namespace Strings

/-- The counters are what the slots hold, and everything is within its limit. -/
structure Exact (s : Strings) : Prop where
  live : s.live = s.slots.countP Option.isSome
  bytes : s.bytes = (s.slots.map slotSize).sum
  bytes_le : s.bytes ≤ s.maxBytes
  length_le : s.slots.length ≤ s.capacity
  capacity_pos : 0 < s.capacity
  capacity_le : s.capacity ≤ max 1 s.maxSlots
  maxSlots_le : s.maxSlots ≤ indexMask.toNat

/-- A new table is exact. -/
lemma exact_new (maxSlots maxBytes : Nat) : (new maxSlots maxBytes).Exact where
  live := rfl
  bytes := rfl
  bytes_le := Nat.zero_le _
  length_le := Nat.zero_le _
  capacity_pos := by simp only [new, initialSlots]; omega
  capacity_le := by
    simp only [new, initialSlots, show indexMask.toNat = 1073741823 from rfl]
    omega
  maxSlots_le := Nat.min_le_right _ _

/-- The capacity of an exact table is below the tags. -/
lemma Exact.capacity_lt {s : Strings} (exact : s.Exact) : s.capacity < 2 ^ 30 := by
  have le := exact.capacity_le
  have lt := exact.maxSlots_le
  rw [show indexMask.toNat = 1073741823 from rfl] at lt
  omega

/-- A slot with data is below the capacity. -/
lemma Exact.slot_lt {s : Strings} (exact : s.Exact) {slot : Nat} {data : Arr Byte}
    (h : s.tempRaw slot = some data) : slot < 2 ^ 30 := by
  have lt : slot < s.slots.length := by
    by_contra ge
    rw [tempRaw, List.getElem?_eq_none (by omega)] at h
    cases h
  have le := exact.length_le
  have cap := exact.capacity_lt
  omega

/-- The table with `n` slots. -/
def withCapacity (s : Strings) (n : Nat) : Strings := { s with capacity := n }.fill

/-- More capacity is free slots at the end. -/
lemma slots_withCapacity (s : Strings) (n : Nat) :
    (s.withCapacity n).slots = s.slots ++ List.replicate (n - s.slots.length) none := rfl

/-- More capacity keeps the strings. -/
lemma tempRaw_withCapacity (s : Strings) (n slot : Nat) :
    (s.withCapacity n).tempRaw slot = s.tempRaw slot := by
  rw [tempRaw, tempRaw, slots_withCapacity, List.getElem?_append]
  split
  next => rfl
  next ge =>
    rw [List.getElem?_eq_none (by omega : s.slots.length ≤ slot), List.getElem?_replicate]
    split <;> rfl

/-- A table grown within its limit is exact. -/
lemma Exact.withCapacity {s : Strings} (exact : s.Exact) {n : Nat} (lo : s.capacity ≤ n)
    (hi : n ≤ max 1 s.maxSlots) : (s.withCapacity n).Exact where
  live := by
    rw [slots_withCapacity, List.countP_append, List.countP_replicate]
    exact exact.live
  bytes := by
    rw [slots_withCapacity, List.map_append, List.sum_append, List.map_replicate,
      List.sum_replicate]
    exact exact.bytes
  bytes_le := exact.bytes_le
  length_le := by
    have le := exact.length_le
    rw [slots_withCapacity, List.length_append, List.length_replicate]
    show s.slots.length + (n - s.slots.length) ≤ n
    omega
  capacity_pos := Nat.lt_of_lt_of_le exact.capacity_pos lo
  capacity_le := hi
  maxSlots_le := exact.maxSlots_le

/-- A table with a free slot finds one. -/
lemma Exact.findFree {s : Strings} (exact : s.Exact) (filled : s.slots.length = s.capacity)
    (free : s.live < s.capacity) :
    ∃ slot, s.findFree = some slot ∧ s.slots[slot]? = some none := by
  have some : ∃ i, i < s.capacity ∧ s.slots[i]? = some none := by
    by_contra none
    have full : s.slots.countP Option.isSome = s.slots.length := by
      refine List.countP_eq_length.2 fun data mem => ?_
      obtain ⟨i, lt, rfl⟩ := List.getElem_of_mem mem
      by_contra e
      refine none ⟨i, by omega, ?_⟩
      rw [List.getElem?_eq_getElem lt]
      simpa using e
    have live := exact.live
    omega
  obtain ⟨i, lt, e⟩ := some
  have mem : i ∈ (List.range s.capacity).drop (s.cursor % s.capacity) ++
      (List.range s.capacity).take (s.cursor % s.capacity) := by
    have all : i ∈ (List.range s.capacity).take (s.cursor % s.capacity) ++
        (List.range s.capacity).drop (s.cursor % s.capacity) := by
      rw [List.take_append_drop]
      exact List.mem_range.2 lt
    exact List.mem_append.2 (List.mem_append.1 all).symm
  cases found : s.findFree with
  | none =>
    have none := List.find?_eq_none.1 found i mem
    simp [e] at none
  | some slot =>
    refine ⟨slot, rfl, ?_⟩
    have holds := List.find?_some found
    cases at' : s.slots[slot]? with
    | none => simp [at'] at holds
    | some data => simpa [at'] using holds

/-- The table with data put in a slot, which the cursor then follows. -/
def put (s : Strings) (slot : Nat) (data : Arr Byte) : Strings :=
  { s with
    slots := s.slots.set slot (some data)
    live := s.live + 1
    bytes := s.bytes + data.size
    cursor := slot + 1 }

/-- A table with data put in a free slot, where there are bytes left, is exact. -/
lemma Exact.put {s : Strings} (exact : s.Exact) {slot : Nat} {data : Arr Byte}
    (free : s.slots[slot]? = some none) (room : s.bytes + data.size ≤ s.maxBytes) :
    (s.put slot data).Exact where
  live := by
    have count := countP_set_of_getElem? free (some data)
    have live := exact.live
    simp only [Option.isSome_none, Option.isSome_some, Bool.toNat_false, Bool.toNat_true] at count
    simp only [Strings.put]
    omega
  bytes := by
    have sum := sum_slotSize_set free (some data)
    have bytes := exact.bytes
    simp only [slotSize, Option.elim_none, Option.elim_some] at sum bytes
    simp only [Strings.put]
    omega
  bytes_le := room
  length_le := by simpa [Strings.put] using exact.length_le
  capacity_pos := exact.capacity_pos
  capacity_le := exact.capacity_le
  maxSlots_le := exact.maxSlots_le

/-- No slot is free and the table may not grow. -/
def Full (s : Strings) : Prop :=
  s.capacity ≤ s.live ∧ min (s.capacity * 2 + initialSlots) s.maxSlots ≤ s.capacity

instance (s : Strings) : Decidable s.Full := inferInstanceAs (Decidable (_ ∧ _))

/-- An allocation fails when it exceeds the bytes or the table is full, and changes nothing. -/
lemma allocRaw_refused {s : Strings} {data : Arr Byte}
    (h : s.maxBytes < s.bytes + data.size ∨ s.Full) :
    s.allocRaw data = (.error .tempStrings, s) := by
  unfold allocRaw
  split
  next => rfl
  next room =>
    obtain ⟨live, grown⟩ := h.resolve_left (by omega)
    rw [show s.grow = none by rw [grow, if_neg (by omega), if_pos grown]]
    rfl

/-- Any other allocation takes a free slot of the table, which may have grown. -/
lemma Exact.allocRaw {s : Strings} (exact : s.Exact) {data : Arr Byte}
    (room : s.bytes + data.size ≤ s.maxBytes) (free : ¬ s.Full) :
    ∃ slot n, s.allocRaw data = (.ok (tempHandle slot), (s.withCapacity n).put slot data) ∧
      s.tempRaw slot = none ∧ slot < n ∧ s.capacity ≤ n ∧ n ≤ max 1 s.maxSlots ∧
      (s.withCapacity n).slots[slot]? = some none ∧ (s.withCapacity n).findFree = some slot ∧
      s.live < n := by
  have grow : ∃ n, s.grow = some { s with capacity := n } ∧ s.live < n ∧ s.capacity ≤ n ∧
      n ≤ max 1 s.maxSlots := by
    have le := exact.capacity_le
    have live := exact.live ▸ List.countP_le_length
    have length := exact.length_le
    unfold Strings.grow
    by_cases lt : s.live < s.capacity
    · exact ⟨s.capacity, if_pos lt, lt, Nat.le_refl _, le⟩
    · have grown : s.capacity < min (s.capacity * 2 + initialSlots) s.maxSlots := by
        by_contra full
        exact free ⟨by omega, by omega⟩
      refine ⟨_, by rw [if_neg lt, if_neg (by omega)], by omega, by omega, ?_⟩
      exact Nat.le_trans (Nat.min_le_right _ _) (Nat.le_max_right _ _)
  obtain ⟨n, grow, lt, lo, hi⟩ := grow
  have filled : (s.withCapacity n).slots.length = n := by
    have length := exact.length_le
    rw [slots_withCapacity, List.length_append, List.length_replicate]
    omega
  obtain ⟨slot, found, at'⟩ := (exact.withCapacity lo hi).findFree filled lt
  refine ⟨slot, n, ?_, ?_, ?_, lo, hi, at', found, lt⟩
  · unfold Strings.allocRaw
    rw [if_neg (by omega), grow]
    have found : (Strings.fill { s with capacity := n }).findFree = some slot := found
    dsimp only [Option.map_some]
    rw [found]
    rfl
  · rw [← tempRaw_withCapacity s n, tempRaw, at']
    rfl
  · rw [← filled]
    exact (List.getElem?_eq_some_iff.1 at').1

/-- Data put in a free slot is the string there, and the others are kept. -/
lemma tempRaw_put {s : Strings} {slot : Nat} (h : s.slots[slot]? = some none) (data : Arr Byte)
    (other : Nat) :
    (s.put slot data).tempRaw other = if other = slot then some data else s.tempRaw other := by
  have lt := (List.getElem?_eq_some_iff.1 h).1
  simp only [tempRaw, Strings.put]
  split
  next e => rw [e, List.getElem?_set_self lt]; rfl
  next ne => rw [List.getElem?_set_ne (fun e => ne e.symm)]

/-- A temp string made writable is the string with zeros at its end, paid for. -/
lemma tempRawMut_eq_some {s t : Strings} {slot len : Nat} {data : Arr Byte}
    (h : s.tempRawMut slot len = some (data, t)) :
    ∃ before, s.tempRaw slot = some before ∧ before.size ≤ data.size ∧ len ≤ data.size ∧
      data = before.resize data.size 0 ∧
      (before.size < data.size → s.bytes + (data.size - before.size) ≤ s.maxBytes) ∧
      t = { s with
        slots := s.slots.set slot (some data)
        bytes := s.bytes + (data.size - before.size) } := by
  unfold tempRawMut at h
  cases old : s.tempRaw slot with
  | none => rw [old] at h; cases h
  | some before =>
    simp only [old, Option.pure_def, Option.bind_eq_bind, Option.bind_some] at h
    refine ⟨before, rfl, ?_⟩
    split at h
    next le =>
      have at' : s.slots[slot]? = some (some before) := Option.join_eq_some_iff.1 old
      obtain ⟨lt, get⟩ := List.getElem?_eq_some_iff.1 at'
      cases h
      refine ⟨Nat.le_refl _, le, ?_, fun lt => absurd lt (Nat.lt_irrefl _), ?_⟩
      · exact Arr.ext rfl fun i inside => (Arr.get_resize_of_lt _ inside inside).symm
      · rw [Nat.sub_self, Nat.add_zero, ← get, List.set_getElem_self]
    next grows =>
      split at h
      next => cases h
      next =>
        split at h
        next => cases h
        next room =>
          cases h
          refine ⟨?_, ?_, rfl, fun _ => ?_, rfl⟩
          · rw [Arr.size_resize]; omega
          · rw [Arr.size_resize]; omega
          · rw [Arr.size_resize]; omega

/-- A temp string overwritten in place, grown to hold `len` bytes. -/
def overwrite (s : Strings) (slot len start : Nat) (text : List Byte) : Strings :=
  match s.tempRawMut slot len with
  | none => s
  | some (data, t) => { t with slots := t.slots.set slot (some (data.write start text)) }

/-- Overwriting a temp string keeps the table exact. -/
lemma Exact.overwrite {s : Strings} (exact : s.Exact) (slot len start : Nat) (text : List Byte) :
    (s.overwrite slot len start text).Exact := by
  unfold Strings.overwrite
  split
  next => exact exact
  next data t e =>
    obtain ⟨before, old, grows, -, -, room, rfl⟩ := tempRawMut_eq_some e
    have at' : s.slots[slot]? = some (some before) := Option.join_eq_some_iff.1 old
    have count := countP_set_of_getElem? at' (some (data.write start text))
    have sum := sum_slotSize_set at' (some (data.write start text))
    have live := exact.live
    have bytes := exact.bytes
    have le := exact.bytes_le
    simp only [Option.isSome_some, slotSize, Option.elim_some, Arr.size_write] at count sum bytes
    exact
      { live := by
          simp only [List.set_set]
          omega
        bytes := by
          simp only [List.set_set]
          omega
        bytes_le := by
          rcases Nat.lt_or_ge before.size data.size with lt | ge
          · exact room lt
          · show s.bytes + (data.size - before.size) ≤ s.maxBytes
            omega
        length_le := by simpa using exact.length_le
        capacity_pos := exact.capacity_pos
        capacity_le := exact.capacity_le
        maxSlots_le := exact.maxSlots_le }

/-- Only the slots and counters of temp strings matter. -/
lemma Exact.congr {s t : Strings} (exact : s.Exact) (slots : t.slots = s.slots)
    (capacity : t.capacity = s.capacity) (live : t.live = s.live) (bytes : t.bytes = s.bytes)
    (maxSlots : t.maxSlots = s.maxSlots) (maxBytes : t.maxBytes = s.maxBytes) : t.Exact where
  live := by rw [live, slots]; exact exact.live
  bytes := by rw [bytes, slots]; exact exact.bytes
  bytes_le := by rw [bytes, maxBytes]; exact exact.bytes_le
  length_le := by rw [slots, capacity]; exact exact.length_le
  capacity_pos := by rw [capacity]; exact exact.capacity_pos
  capacity_le := by rw [capacity, maxSlots]; exact exact.capacity_le
  maxSlots_le := by rw [maxSlots]; exact exact.maxSlots_le

/-- A temp string somebody pinned and did not unpin. -/
def Pinned (s : Strings) (slot : Nat) : Prop := (s.pins.lookup slot).isSome

/-- A temp string named by an aligned word of the regions. -/
def Named (regions : List (Arr Byte)) (slot : Nat) : Prop :=
  ∃ region ∈ regions, ∃ i, 4 * i + 4 ≤ region.size ∧ wordAt region (4 * i) = tempHandle slot

/-- A slot is marked exactly if it is pinned or a word of the regions names it. -/
lemma marked_iff {s : Strings} {regions : List (Arr Byte)} {slot : Nat} (h : slot < 2 ^ 30) :
    s.marked regions slot ↔ s.Pinned slot ∨ Named regions slot := by
  have refers : ∀ region, refersTo region slot ↔
      ∃ i, 4 * i + 4 ≤ region.size ∧ wordAt region (4 * i) = tempHandle slot := by
    intro region
    simp only [refersTo, List.any_eq_true, List.mem_range, Bool.and_eq_true, beq_iff_eq,
      eq_tempHandle_iff h]
    constructor
    · rintro ⟨i, lt, holds⟩
      exact ⟨i, by omega, holds⟩
    · rintro ⟨i, le, holds⟩
      exact ⟨i, by omega, holds⟩
  simp only [marked, Bool.or_eq_true, List.any_eq_true, refers, Pinned, Named]
  exact Or.comm

/-- A collection keeps exactly the marked strings. -/
lemma tempRaw_collect (s : Strings) (regions : List (Arr Byte)) (slot : Nat) :
    (s.collect regions).tempRaw slot =
      if s.marked regions slot then s.tempRaw slot else none := by
  simp only [tempRaw, collect, List.getElem?_mapIdx]
  cases s.slots[slot]? with
  | none => simp
  | some data => split <;> rfl

/-- A collection keeps the table exact. -/
lemma Exact.collect {s : Strings} (exact : s.Exact) (regions : List (Arr Byte)) :
    (s.collect regions).Exact := by
  obtain ⟨count, sum⟩ := sweep_counts (s.marked regions) s.slots
  have live := exact.live
  have bytes := exact.bytes
  have le := exact.bytes_le
  have length := exact.length_le
  have pos := exact.capacity_pos
  have capacity := exact.capacity_le
  have kept : (s.collect regions).slots = kept (s.marked regions) s.slots := rfl
  have counted : (s.collect regions).live = s.live - (freed (s.marked regions) s.slots).length :=
    rfl
  have stored : (s.collect regions).bytes =
      s.bytes - ((freed (s.marked regions) s.slots).map Arr.size).sum := rfl
  have grown : s.capacity ≤ (s.collect regions).capacity ∧
      (s.collect regions).capacity ≤ max 1 s.maxSlots := by
    simp only [Strings.collect]
    split <;> omega
  exact
    { live := by rw [kept, counted]; omega
      bytes := by rw [kept, stored]; omega
      bytes_le := by
        show _ ≤ s.maxBytes
        omega
      length_le := by
        have same : (s.collect regions).slots.length = s.slots.length := by
          rw [kept, Qcvm.kept, List.length_mapIdx]
        omega
      capacity_pos := by omega
      capacity_le := grown.2
      maxSlots_le := exact.maxSlots_le }

/-- How often a slot is pinned. -/
def pinCount (s : Strings) (slot : Nat) : Nat := (s.pins.lookup slot).getD 0

/-- The slots in the table of pins are pinned at least once. -/
def PinsPositive (s : Strings) : Prop := ∀ slot n, s.pins.lookup slot = some n → 0 < n

/-- Filtering a slot out of the pins removes it and no other. -/
lemma lookup_filter_ne (pins : List (Nat × Nat)) (slot other : Nat) :
    (pins.filter fun p => p.1 != slot).lookup other =
      if other = slot then none else pins.lookup other := by
  induction pins with
  | nil => simp
  | cons p rest ih =>
    obtain ⟨k, n⟩ := p
    by_cases hk : k = slot
    · subst hk
      rw [List.filter_cons_of_neg (by simp), ih]
      split
      next => rfl
      next ne => rw [List.lookup_cons, beq_eq_false_iff_ne.2 ne]
    · rw [List.filter_cons_of_pos (by simpa using hk), List.lookup_cons, List.lookup_cons, ih]
      by_cases ho : other = k
      · subst ho
        simp [hk]
      · simp [beq_eq_false_iff_ne.2 ho]

/-- A slot is pinned exactly if its count is positive. -/
lemma pinned_iff {s : Strings} (positive : s.PinsPositive) (slot : Nat) :
    s.Pinned slot ↔ 0 < s.pinCount slot := by
  unfold Pinned pinCount
  cases h : s.pins.lookup slot with
  | none => simp
  | some n =>
    simpa using positive slot n h

/-- A pin adds one to the count of its slot. -/
lemma lookup_pin (s : Strings) (r : Word) (slot : Nat) :
    (s.pin r).pins.lookup slot =
      if classify r = .temp slot then some (saturatingAdd (s.pinCount slot) 1)
      else s.pins.lookup slot := by
  unfold pin pinCount
  split
  next k e =>
    by_cases same : slot = k
    · subst same
      rw [if_pos e]
      cases h : s.pins.lookup slot with
      | none => simp [saturatingAdd, u32Max]
      | some n => simp
    · rw [if_neg (by rw [e]; simpa using fun h => same h.symm)]
      cases h : s.pins.lookup k with
      | none => simp [List.lookup_cons, beq_eq_false_iff_ne.2 same]
      | some n => simp [List.lookup_cons, beq_eq_false_iff_ne.2 same, lookup_filter_ne, same]
  next other =>
    rw [if_neg (other slot)]

/-- An unpin takes one from the count of its slot, and drops it at zero. -/
lemma lookup_unpin (s : Strings) (r : Word) (slot : Nat) :
    (s.unpin r).pins.lookup slot =
      if classify r = .temp slot then
        if s.pinCount slot - 1 = 0 then none else some (s.pinCount slot - 1)
      else s.pins.lookup slot := by
  unfold unpin pinCount
  split
  next k e =>
    by_cases same : slot = k
    · subst same
      rw [if_pos e]
      cases h : s.pins.lookup slot with
      | none => simp [h]
      | some n => by_cases last : n - 1 = 0 <;> simp [last, lookup_filter_ne]
    · rw [if_neg (by rw [e]; simpa using fun h => same h.symm)]
      cases h : s.pins.lookup k with
      | none => rfl
      | some n =>
        by_cases last : n - 1 = 0 <;>
          simp [last, List.lookup_cons, beq_eq_false_iff_ne.2 same, lookup_filter_ne, same]
  next other =>
    rw [if_neg (other slot)]

end Strings

/-- An operation on the string tables. -/
inductive StringsOp where
  | alloc (text : List Byte)
  | allocRaw (data : Arr Byte)
  /-- `Strings::temp_raw_mut`, and bytes written to the data it returns. -/
  | overwrite (slot len start : Nat) (text : List Byte)
  | intern (text : List Byte)
  | pin (r : Word)
  | unpin (r : Word)
  | collect (roots : List (Arr Byte))

namespace StringsOp

/-- How often `slot` is pinned after an operation. -/
def pinCount (slot n : Nat) : StringsOp → Nat
  | .pin r => if classify r = .temp slot then saturatingAdd n 1 else n
  | .unpin r => if classify r = .temp slot then n - 1 else n
  | _ => n

end StringsOp

namespace Strings

/-- The tables after an operation. -/
def apply (s : Strings) : StringsOp → Strings
  | .alloc text => (s.alloc text).2
  | .allocRaw data => (s.allocRaw data).2
  | .overwrite slot len start text => s.overwrite slot len start text
  | .intern text => (s.intern text).2
  | .pin r => s.pin r
  | .unpin r => s.unpin r
  | .collect roots => s.collect roots

/-- An allocation that fails leaves the tables as they are. -/
lemma Exact.allocRaw_error {s t : Strings} (exact : s.Exact) {data : Arr Byte} {e : Resource}
    (h : s.allocRaw data = (.error e, t)) : t = s := by
  by_cases refused : s.maxBytes < s.bytes + data.size ∨ s.Full
  · rw [allocRaw_refused refused] at h
    cases h
    rfl
  · rw [not_or] at refused
    have room : s.bytes + data.size ≤ s.maxBytes := by omega
    obtain ⟨slot, n, done, -⟩ := exact.allocRaw room refused.2
    rw [done] at h
    cases h

/-- An allocation is one of raw data, or there are no bytes left for it. -/
lemma alloc_eq (s : Strings) (text : List Byte) :
    s.alloc text = s.allocRaw ((Arr.ofList text).resize (paddedSize text.length) 0) ∨
      s.maxBytes < s.bytes + paddedSize text.length ∧ s.alloc text = (.error .tempStrings, s) := by
  unfold alloc fits room
  split
  next => exact .inl rfl
  next h => exact .inr ⟨by rw [decide_eq_true_iff] at h; omega, rfl⟩

/-- An allocation that fails changes nothing. -/
lemma Exact.alloc_error {s t : Strings} (exact : s.Exact) {text : List Byte} {e : Resource}
    (h : s.alloc text = (.error e, t)) : t = s := by
  rcases alloc_eq s text with eq | ⟨-, eq⟩
  · exact exact.allocRaw_error (eq ▸ h)
  · rw [eq] at h
    cases h
    rfl

/-- `t` is `s` with `data` as a new string, whose reference is `r`. -/
def Stores (s : Strings) (data : Arr Byte) (r : Word) (t : Strings) : Prop :=
  ∃ slot, r = tempHandle slot ∧ s.tempRaw slot = none ∧
    ∀ other, t.tempRaw other = if other = slot then some data else s.tempRaw other

/-- An allocation that succeeds. -/
lemma Exact.allocRaw_ok {s t : Strings} (exact : s.Exact) {data : Arr Byte} {r : Word}
    (h : s.allocRaw data = (.ok r, t)) :
    t.Exact ∧ s.Stores data r t ∧ ∀ live, (s.tempRaw live).isSome → tempHandle live ≠ r := by
  by_cases refused : s.maxBytes < s.bytes + data.size ∨ s.Full
  · rw [allocRaw_refused refused] at h
    cases h
  · rw [not_or] at refused
    have room : s.bytes + data.size ≤ s.maxBytes := by omega
    obtain ⟨slot, n, done, empty, lt, lo, hi, free, -⟩ := exact.allocRaw room refused.2
    have larger := exact.withCapacity lo hi
    rw [done] at h
    cases h
    refine ⟨larger.put free room, ⟨slot, rfl, empty, fun other => ?_⟩, fun live some same => ?_⟩
    · rw [tempRaw_put free, tempRaw_withCapacity]
    · obtain ⟨old, e⟩ := Option.isSome_iff_exists.1 some
      have small : slot < 2 ^ 30 := Nat.lt_trans lt larger.capacity_lt
      rw [tempHandle_injective (exact.slot_lt e) small same, empty] at e
      cases e

/-- An allocation of raw data keeps the table exact, also when it fails. -/
lemma Exact.allocRaw_snd {s : Strings} (exact : s.Exact) (data : Arr Byte) :
    (s.allocRaw data).2.Exact := by
  cases h : s.allocRaw data with
  | mk result t =>
    cases result with
    | ok r => exact (exact.allocRaw_ok h).1
    | error e =>
      rw [exact.allocRaw_error h]
      exact exact

/-- Interning touches the static strings alone. -/
lemma intern_eq (s : Strings) (text : List Byte) :
    (s.intern text).2 = { s with statics := (s.intern text).2.statics } := by
  unfold Strings.intern
  split <;> rfl

/-- A pin touches the pins alone. -/
lemma pin_eq (s : Strings) (r : Word) : s.pin r = { s with pins := (s.pin r).pins } := by
  unfold Strings.pin
  split
  next => split <;> rfl
  next => rfl

/-- An unpin touches the pins alone. -/
lemma unpin_eq (s : Strings) (r : Word) : s.unpin r = { s with pins := (s.unpin r).pins } := by
  unfold Strings.unpin
  split
  next => split <;> rfl
  next => rfl

/-- Every operation keeps the table exact. -/
lemma Exact.apply {s : Strings} (exact : s.Exact) (op : StringsOp) : (s.apply op).Exact := by
  cases op with
  | alloc text =>
    rcases alloc_eq s text with e | ⟨-, e⟩
    · simp only [Strings.apply, e]
      exact exact.allocRaw_snd _
    · simp only [Strings.apply, e]
      exact exact
  | allocRaw data => exact exact.allocRaw_snd data
  | overwrite slot len start text => exact exact.overwrite slot len start text
  | intern text =>
    simp only [Strings.apply]
    rw [intern_eq]
    exact exact.congr rfl rfl rfl rfl rfl rfl
  | pin r =>
    simp only [Strings.apply]
    rw [pin_eq]
    exact exact.congr rfl rfl rfl rfl rfl rfl
  | unpin r =>
    simp only [Strings.apply]
    rw [unpin_eq]
    exact exact.congr rfl rfl rfl rfl rfl rfl
  | collect roots => exact exact.collect roots

/-- What an allocation leaves alone. -/
lemma allocRaw_limits (s : Strings) (data : Arr Byte) :
    (s.allocRaw data).2.maxSlots = s.maxSlots ∧ (s.allocRaw data).2.maxBytes = s.maxBytes ∧
      (s.allocRaw data).2.pins = s.pins := by
  have grow : ∀ t, s.grow.map fill = some t →
      t.maxSlots = s.maxSlots ∧ t.maxBytes = s.maxBytes ∧ t.pins = s.pins := by
    intro t h
    unfold Strings.grow at h
    dsimp only at h
    split at h
    next => cases h; exact ⟨rfl, rfl, rfl⟩
    next =>
      split at h
      next => cases h
      next => cases h; exact ⟨rfl, rfl, rfl⟩
  unfold Strings.allocRaw
  split
  next => exact ⟨rfl, rfl, rfl⟩
  next =>
    split
    next => exact ⟨rfl, rfl, rfl⟩
    next t e =>
      split
      next => exact grow t e
      next => exact grow t e

/-- Overwriting a temp string keeps the limits and the pins. -/
lemma overwrite_limits (s : Strings) (slot len start : Nat) (text : List Byte) :
    (s.overwrite slot len start text).maxSlots = s.maxSlots ∧
      (s.overwrite slot len start text).maxBytes = s.maxBytes ∧
      (s.overwrite slot len start text).pins = s.pins := by
  unfold overwrite
  split
  next => exact ⟨rfl, rfl, rfl⟩
  next data t e =>
    obtain ⟨before, -, -, -, -, -, rfl⟩ := tempRawMut_eq_some e
    exact ⟨rfl, rfl, rfl⟩

/-- An allocation keeps the limits and the pins. -/
lemma alloc_limits (s : Strings) (text : List Byte) :
    (s.alloc text).2.maxSlots = s.maxSlots ∧ (s.alloc text).2.maxBytes = s.maxBytes ∧
      (s.alloc text).2.pins = s.pins := by
  rcases alloc_eq s text with e | ⟨-, e⟩
  · rw [e]
    exact allocRaw_limits s _
  · rw [e]
    exact ⟨rfl, rfl, rfl⟩

/-- Every operation keeps the limits. -/
lemma apply_limits (s : Strings) (op : StringsOp) :
    (s.apply op).maxSlots = s.maxSlots ∧ (s.apply op).maxBytes = s.maxBytes := by
  cases op with
  | alloc text => exact ⟨(alloc_limits s text).1, (alloc_limits s text).2.1⟩
  | allocRaw data => exact ⟨(allocRaw_limits s data).1, (allocRaw_limits s data).2.1⟩
  | overwrite slot len start text =>
    obtain ⟨slots, bytes, -⟩ := overwrite_limits s slot len start text
    exact ⟨slots, bytes⟩
  | intern text => simp only [apply]; rw [intern_eq]; exact ⟨rfl, rfl⟩
  | pin r => simp only [apply]; rw [pin_eq]; exact ⟨rfl, rfl⟩
  | unpin r => simp only [apply]; rw [unpin_eq]; exact ⟨rfl, rfl⟩
  | collect roots => exact ⟨rfl, rfl⟩

/-- Only `pin` and `unpin` change the pins. -/
lemma PinsPositive.apply {s : Strings} (positive : s.PinsPositive) (op : StringsOp) :
    (s.apply op).PinsPositive ∧
      ∀ slot, (s.apply op).pinCount slot = op.pinCount slot (s.pinCount slot) := by
  have same : ∀ {t : Strings}, t.pins = s.pins →
      t.PinsPositive ∧ ∀ slot, t.pinCount slot = s.pinCount slot := by
    intro t e
    unfold PinsPositive pinCount
    rw [e]
    exact ⟨positive, fun _ => rfl⟩
  cases op with
  | alloc text => exact same (alloc_limits s text).2.2
  | allocRaw data => exact same (allocRaw_limits s data).2.2
  | overwrite slot len start text => exact same (overwrite_limits s slot len start text).2.2
  | intern text => exact same (by rw [Strings.apply, intern_eq])
  | collect roots => exact same rfl
  | pin r =>
    constructor
    · intro slot n h
      simp only [Strings.apply, lookup_pin] at h
      split at h
      next => cases h; simp only [saturatingAdd, u32Max]; omega
      next => exact positive slot n h
    · intro slot
      simp only [Strings.apply, StringsOp.pinCount]
      rw [pinCount, lookup_pin]
      split <;> rfl
  | unpin r =>
    constructor
    · intro slot n h
      simp only [Strings.apply, lookup_unpin] at h
      split at h
      next =>
        split at h
        next => cases h
        next nonzero => cases h; omega
      next => exact positive slot n h
    · intro slot
      simp only [Strings.apply, StringsOp.pinCount]
      rw [pinCount, lookup_unpin]
      split
      next =>
        split
        next zero => rw [zero]; rfl
        next => rfl
      next => rfl

/-- The tables after a sequence of operations. -/
def run (s : Strings) (ops : List StringsOp) : Strings := ops.foldl apply s

/-- What holds of the tables after any sequence of operations. -/
lemma exact_run (maxSlots maxBytes : Nat) (ops : List StringsOp) :
    ((new maxSlots maxBytes).run ops).Exact ∧
      ((new maxSlots maxBytes).run ops).maxSlots = min maxSlots indexMask.toNat ∧
      ((new maxSlots maxBytes).run ops).maxBytes = maxBytes ∧
      ((new maxSlots maxBytes).run ops).PinsPositive ∧
      ∀ slot, ((new maxSlots maxBytes).run ops).pinCount slot =
        ops.foldl (fun n op => op.pinCount slot n) 0 := by
  induction ops using List.reverseRecOn with
  | nil =>
    have none : (new maxSlots maxBytes).PinsPositive := fun slot n h => by simp [new] at h
    exact ⟨exact_new maxSlots maxBytes, rfl, rfl, none, fun _ => rfl⟩
  | append_singleton ops op ih =>
    obtain ⟨exact', slots, bytes, positive, counts⟩ := ih
    have limits := apply_limits ((new maxSlots maxBytes).run ops) op
    obtain ⟨positive, count⟩ := positive.apply op
    have step : (new maxSlots maxBytes).run (ops ++ [op]) =
        ((new maxSlots maxBytes).run ops).apply op := List.foldl_concat ..
    rw [step]
    refine ⟨exact'.apply op, limits.1.trans slots, limits.2.trans bytes, positive, fun slot => ?_⟩
    rw [count, counts, List.foldl_concat]

/-- A collection keeps the pinned strings and those that the regions name, and no others. -/
lemma Exact.tempRaw_collect {s : Strings} (exact : s.Exact) (regions : List (Arr Byte))
    (slot : Nat) :
    (s.Pinned slot ∨ Named regions slot → (s.collect regions).tempRaw slot = s.tempRaw slot) ∧
      (¬ (s.Pinned slot ∨ Named regions slot) → (s.collect regions).tempRaw slot = none) := by
  rw [Strings.tempRaw_collect]
  cases h : s.tempRaw slot with
  | none => simp
  | some data =>
    rw [← marked_iff (exact.slot_lt h)]
    exact ⟨fun m => if_pos m, fun m => if_neg m⟩

end Strings

/-- **The temp-string table is exact, and so is its collector.** -/
theorem tempStrings_exact (maxSlots maxBytes : Nat) (ops : List StringsOp) :
    let s := (Strings.new maxSlots maxBytes).run ops
    (s.live = s.slots.countP Option.isSome ∧ s.bytes = (s.slots.map slotSize).sum ∧
      s.bytes ≤ maxBytes ∧ s.slots.length ≤ s.capacity ∧ s.capacity ≤ max 1 maxSlots) ∧
    (∀ data r t, s.allocRaw data = (.ok r, t) →
      s.Stores data r t ∧ ∀ live, (s.tempRaw live).isSome → tempHandle live ≠ r) ∧
    (∀ text r t, s.alloc text = (.ok r, t) →
      s.Stores ((Arr.ofList text).resize (Strings.paddedSize text.length) 0) r t ∧
        ∀ live, (s.tempRaw live).isSome → tempHandle live ≠ r) ∧
    (∀ data e t, s.allocRaw data = (.error e, t) → t = s) ∧
    (∀ text e t, s.alloc text = (.error e, t) → t = s) ∧
    (∀ slot, s.Pinned slot ↔ 0 < ops.foldl (fun n op => op.pinCount slot n) 0) ∧
    ∀ core : Core, core.strings = s → ∀ slot,
      (s.Pinned slot ∨ Strings.Named core.roots slot →
        core.collectGarbageNow.strings.tempRaw slot = s.tempRaw slot) ∧
      (¬ (s.Pinned slot ∨ Strings.Named core.roots slot) →
        core.collectGarbageNow.strings.tempRaw slot = none) := by
  intro s
  obtain ⟨exact', slots, bytes, positive, counts⟩ := Strings.exact_run maxSlots maxBytes ops
  refine ⟨⟨exact'.live, exact'.bytes, bytes ▸ exact'.bytes_le, exact'.length_le, ?_⟩,
    fun data r t h => (exact'.allocRaw_ok h).2, fun text r t h => ?_,
    fun data e t h => exact'.allocRaw_error h, fun text e t h => exact'.alloc_error h, fun slot => ?_,
    fun core e slot => ?_⟩
  · have le := exact'.capacity_le
    show s.capacity ≤ _
    change s.capacity ≤ max 1 s.maxSlots at le
    change s.maxSlots = _ at slots
    omega
  · rcases Strings.alloc_eq s text with e | ⟨-, e⟩
    · exact (exact'.allocRaw_ok (e ▸ h)).2
    · rw [e] at h
      cases h
  · rw [Strings.pinned_iff positive, counts]
  · simp only [Core.collectGarbageNow, e]
    exact exact'.tempRaw_collect core.roots slot

/-- An allocation fails exactly when the text exceeds the bytes left or no slot is to be had. -/
lemma Strings.Exact.alloc_error_iff {s : Strings} (exact : s.Exact) (text : List Byte) :
    (∃ e t, s.alloc text = (.error e, t)) ↔
      s.maxBytes < s.bytes + Strings.paddedSize text.length ∨ s.Full := by
  constructor
  · rintro ⟨e, t, h⟩
    by_contra fits
    rw [not_or] at fits
    rcases Strings.alloc_eq s text with eq | ⟨atop, -⟩
    · have room : s.bytes + ((Arr.ofList text).resize (Strings.paddedSize text.length) 0).size ≤
          s.maxBytes := by
        rw [Arr.size_resize]
        omega
      obtain ⟨slot, n, done, -⟩ := exact.allocRaw room fits.2
      rw [eq, done] at h
      cases h
    · exact fits.1 atop
  · intro atop
    rcases Strings.alloc_eq s text with eq | ⟨-, eq⟩
    · exact ⟨_, _, eq.trans (Strings.allocRaw_refused atop)⟩
    · exact ⟨_, _, eq⟩

end Qcvm

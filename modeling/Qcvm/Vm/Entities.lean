import Qcvm.Vm.Boot

/-!
# Entity slots

Which slot a spawn hands out, and what spawning, claiming and removing do to the slots and to the
entity blocks. The world keeps slot 0, and the blocks are those of the slots.
-/

namespace Qcvm

open Lib

namespace Memory

variable {m m' : Memory} {e k : Nat}

/-- The serial of an entity slot, 0 if it was never used. -/
def serialOf (m : Memory) (e : Nat) : Nat := (m.slots[e]?.map (·.serial)).getD 0

/-- What taking slot `e` does: the slot is in use and open to writes, its serial moved on and its
block is zero; the slots and blocks there were are as before, and slots added below it are unused. -/
structure Taken (m : Memory) (e : Nat) (m' : Memory) : Prop where
  slot : ∃ slot, m'.slots[e]? = some slot ∧ slot.inUse = true ∧ slot.guarded = false ∧
    slot.serial = wrappingAdd (m.serialOf e) 1
  zero : ∀ i, e * m.stride ≤ i → i < e * m.stride + m.stride → m'.e.get i = 0
  others : ∀ k < m.slots.length, k ≠ e → m'.slots[k]? = m.slots[k]?
  added : ∀ k, m.slots.length ≤ k → k < e → m'.slots[k]? = some .unused
  blocks : ∀ i < m.e.size, i < e * m.stride ∨ e * m.stride + m.stride ≤ i → m'.e.get i = m.e.get i
  length : m'.slots.length = max m.slots.length (e + 1)
  stride : m'.stride = m.stride
  maxEdicts : m'.maxEdicts = m.maxEdicts

/-- The slots of a memory that is laid out: the world has the first one. -/
structure Entities (m : Memory) : Prop extends Layout m where
  world : m.inUse 0 = true

/-- An entity is in use exactly if its slot says so. -/
lemma inUse_eq_true : m.inUse e = true ↔ ∃ slot, m.slots[e]? = some slot ∧ slot.inUse = true := by
  unfold inUse
  cases m.slots[e]? with
  | none => simp
  | some slot => simp

/-- There is no entity in use past the slots. -/
lemma inUse_eq_false_of_le (le : m.slots.length ≤ e) : m.inUse e = false := by
  unfold inUse
  rw [List.getElem?_eq_none le]
  rfl

/-- The world has a slot. -/
lemma Entities.pos (n : m.Entities) : 0 < m.slots.length := by
  by_contra none
  have idle := inUse_eq_false_of_le (m := m) (e := 0) (by omega)
  rw [n.world] at idle
  cases idle

/-! ## Searching -/

/-- A slot that is found passes the test, from the start on. -/
lemma findSlot_eq_some {start : Nat} {p : EntSlot → Bool} (found : m.findSlot start p = some e) :
    start ≤ e ∧ ∃ slot, m.slots[e]? = some slot ∧ p slot = true := by
  unfold findSlot at found
  obtain ⟨i, first, rfl⟩ := Option.map_eq_some_iff.mp found
  obtain ⟨lt, holds, -⟩ := List.findIdx?_eq_some_iff_getElem.mp first
  refine ⟨Nat.le_add_left _ _, (m.slots.drop start)[i], ?_, holds⟩
  rw [Nat.add_comm, ← List.getElem?_drop]
  exact List.getElem?_eq_getElem lt

/-- Where no slot is found none passes the test, from the start on. -/
lemma findSlot_eq_none {start : Nat} {p : EntSlot → Bool} (found : m.findSlot start p = none)
    (le : start ≤ e) {slot : EntSlot} (at' : m.slots[e]? = some slot) : p slot = false := by
  unfold findSlot at found
  refine List.findIdx?_eq_none_iff.mp (Option.map_eq_none_iff.mp found) slot ?_
  refine List.mem_of_getElem? (i := e - start) ?_
  rw [List.getElem?_drop, Nat.add_sub_cancel' le]
  exact at'

/-! ## Taking a slot -/

/-- A change of one slot keeps the others. -/
lemma slots_modifySlot (f : EntSlot → EntSlot) :
    (m.modifySlot e f).slots[k]? = (m.slots[k]?).map fun slot => if e = k then f slot else slot :=
  List.getElem?_modify f e m.slots k

/-- Taking a slot puts it in use, open to writes, with the next serial. -/
lemma slots_takeSlot : (m.takeSlot e).slots[k]? = (m.slots[k]?).map fun slot =>
    if e = k then { slot with inUse := true, guarded := false, serial := wrappingAdd slot.serial 1 }
    else slot :=
  slots_modifySlot _

/-- The block of a cleared entity is zero. -/
lemma get_clearEntity_of_inside (r : m.Regions) (lt : e < m.slots.length) {i : Nat}
    (lo : e * m.stride ≤ i) (hi : i < e * m.stride + m.stride) : (m.clearEntity e).e.get i = 0 := by
  have fits := r.block_le lt
  have length : (List.replicate m.stride (0 : Byte)).length = m.stride := List.length_replicate
  unfold clearEntity
  rw [Arr.get_write_of_inside (by rw [length]; exact fits) lo (by rw [length]; exact hi)]
  unfold List.getD
  rw [List.getElem?_replicate]
  split <;> rfl

/-- Clearing an entity keeps the bytes outside its block. -/
lemma get_clearEntity_of_outside {i : Nat}
    (out : i < e * m.stride ∨ e * m.stride + m.stride ≤ i) :
    (m.clearEntity e).e.get i = m.e.get i := by
  have length : (List.replicate m.stride (0 : Byte)).length = m.stride := List.length_replicate
  unfold clearEntity
  exact Arr.get_write_of_outside (by rw [length]; exact out)

/-- Taking a slot there is. -/
lemma Regions.taken (r : m.Regions) (lt : e < m.slots.length) : m.Taken e (m.takeSlot e) where
  slot := by
    have here : m.slots[e]? = some m.slots[e] := List.getElem?_eq_getElem lt
    refine ⟨_, by rw [slots_takeSlot, here, Option.map_some, if_pos rfl], rfl, rfl, ?_⟩
    unfold serialOf
    rw [here]
    rfl
  zero _ lo hi := get_clearEntity_of_inside r lt lo hi
  others k _ ne := by
    rw [slots_takeSlot]
    simp only [if_neg (Ne.symm ne), Option.map_id']
  added k le lt' := by omega
  blocks _ _ out := get_clearEntity_of_outside out
  length := by
    rw [Nat.max_eq_left lt]
    exact List.length_modify _ _ _
  stride := rfl
  maxEdicts := rfl

/-- Growing to an entity makes slots up to it. -/
lemma length_growTo (le : m.slots.length ≤ e) : (m.growTo e).slots.length = e + 1 := by
  simp only [growTo, List.length_append, List.length_replicate]
  omega

/-- Growing keeps the slots there were. -/
lemma slots_growTo (lt : k < m.slots.length) : (m.growTo e).slots[k]? = m.slots[k]? :=
  List.getElem?_append_left lt

/-- The slots that growing makes are unused. -/
lemma slots_growTo_new (le : m.slots.length ≤ k) (lt : k < e + 1) :
    (m.growTo e).slots[k]? = some .unused := by
  unfold growTo
  rw [List.getElem?_append_right le, List.getElem?_replicate, if_pos (by omega)]

/-- Growing keeps the bytes there were. -/
lemma Regions.get_growTo (r : m.Regions) (le : m.slots.length ≤ e) {i : Nat} (lt : i < m.e.size) :
    (m.growTo e).e.get i = m.e.get i := by
  have larger : m.e.size < (e + 1) * m.stride := by
    rw [r.e_size]
    exact Nat.mul_lt_mul_of_pos_right (Nat.lt_succ_of_le le) m.stride_pos
  unfold growTo
  dsimp only
  rw [if_pos larger]
  exact Arr.get_resize_of_lt _ (by omega) lt

/-- Taking a slot behind the table. -/
lemma Layout.taken_growTo (l : m.Layout) (le : m.slots.length ≤ e) (lt : e < m.maxEdicts) :
    m.Taken e ((m.growTo e).takeSlot e) := by
  have grown := l.growTo le lt
  have length := length_growTo le
  have taken := grown.toRegions.taken (e := e) (by omega)
  have larger : m.e.size ≤ (m.growTo e).e.size := by
    rw [grown.e_size, l.e_size, length]
    exact Nat.mul_le_mul_right _ (by omega)
  have unused : (m.growTo e).serialOf e = m.serialOf e := by
    unfold serialOf
    rw [slots_growTo_new le (Nat.lt_succ_self _), List.getElem?_eq_none le]
    rfl
  refine ⟨unused ▸ taken.slot, taken.zero, fun k small ne => ?_, fun k new small => ?_,
    fun i small out => ?_, ?_, rfl, rfl⟩
  · rw [taken.others k (by omega) ne, slots_growTo small]
  · rw [taken.others k (by omega) (by omega), slots_growTo_new new (by omega)]
  · rw [taken.blocks i (by omega) out, l.toRegions.get_growTo le small]
  · rw [taken.length, length]
    omega

/-- The clock of a slot says nothing of the rest of it. -/
lemma Taken.freed (t : m.Taken e m') (time : DWord) :
    m.Taken e (m'.modifySlot e fun slot => { slot with freetime := time }) := by
  have other (k : Nat) (ne : k ≠ e) : (m'.modifySlot e fun slot =>
      { slot with freetime := time }).slots[k]? = m'.slots[k]? := by
    rw [slots_modifySlot]
    simp only [if_neg (Ne.symm ne), Option.map_id']
  refine ⟨?_, t.zero, fun k lt ne => ?_, fun k le lt => ?_, t.blocks, ?_, t.stride, t.maxEdicts⟩
  · obtain ⟨slot, here, used, free, serial⟩ := t.slot
    refine ⟨{ slot with freetime := time }, ?_, used, free, serial⟩
    rw [slots_modifySlot, here, Option.map_some, if_pos rfl]
  · rw [other k ne]
    exact t.others k lt ne
  · rw [other k (by omega)]
    exact t.added k le lt
  · rw [← t.length]
    exact List.length_modify _ _ _

/-- A free slot that a search from the first spawnable slot finds can be spawned. -/
lemma Entities.found (n : m.Entities) {first : Nat} {p : EntSlot → Bool}
    (free : ∀ slot, p slot = true → slot.inUse = false)
    (found : m.findSlot (min first m.slots.length) p = some e) :
    max first 1 ≤ e ∧ e < m.slots.length ∧ m.inUse e = false := by
  obtain ⟨le, slot, here, holds⟩ := findSlot_eq_some found
  obtain ⟨lt, -⟩ := List.getElem?_eq_some_iff.mp here
  have idle : m.inUse e = false := by
    unfold inUse
    rw [here]
    exact free slot holds
  have positive : e ≠ 0 := by
    rintro rfl
    rw [n.world] at idle
    cases idle
  exact ⟨by omega, lt, idle⟩

/-- A spawn takes a slot that may be spawned, or there is none. -/
lemma Entities.spawn (n : m.Entities) (F : FloatOps) (now : DWord) (first : Nat) :
    (∃ e m', m.spawn F now first = .ok (e, m') ∧ max first 1 ≤ e ∧ e < m.maxEdicts ∧
        m.inUse e = false ∧ m.Taken e m') ∨
      m.spawn F now first = .error .noFreeEdicts ∧
        ∀ e, max first 1 ≤ e → e < m.maxEdicts → m.inUse e = true := by
  have below := n.slots_le_max
  unfold Memory.spawn
  dsimp only
  cases picked : m.findSlot (min first m.slots.length) (reusable F now) with
  | some e =>
    have free (slot : EntSlot) (ok : reusable F now slot = true) : slot.inUse = false := by
      unfold reusable at ok
      rw [Bool.and_eq_true, Bool.not_eq_true'] at ok
      exact ok.1
    obtain ⟨ge, lt, idle⟩ := n.found free picked
    exact .inl ⟨e, _, rfl, ge, by omega, idle, n.toRegions.taken lt⟩
  | none =>
    dsimp only
    rw [n.numEdicts]
    have positive := n.pos
    split
    next room =>
      have le : m.slots.length ≤ max m.slots.length first := Nat.le_max_left _ _
      exact .inl ⟨_, _, rfl, by omega, room, inUse_eq_false_of_le le, n.taken_growTo le room⟩
    next full =>
      cases last : m.findSlot (min first m.slots.length) fun slot => !slot.inUse with
      | some e =>
        obtain ⟨ge, lt, idle⟩ := n.found (fun slot ok => by simpa using ok) last
        exact .inl ⟨e, _, rfl, ge, by omega, idle, n.toRegions.taken lt⟩
      | none =>
        refine .inr ⟨rfl, fun e ge lt => ?_⟩
        have small : e < m.slots.length := by omega
        have here : m.slots[e]? = some m.slots[e] := List.getElem?_eq_getElem small
        have used := findSlot_eq_none last (by omega) here
        exact inUse_eq_true.mpr ⟨_, here, by simpa using used⟩

/-- A claim takes the slot it names, unless that is the world's or behind the limit. -/
lemma Entities.claim (n : m.Entities) (e : Nat) :
    (∃ m', m.claim e = .ok m' ∧ 0 < e ∧ e < m.maxEdicts ∧ m.Taken e m') ∨
      m.claim e = .error .noFreeEdicts ∧ (e = 0 ∨ m.maxEdicts ≤ e) := by
  unfold Memory.claim
  split
  next out => exact .inr ⟨rfl, out⟩
  next ok =>
    rw [not_or] at ok
    have lt := Nat.lt_of_not_le ok.2
    refine .inl ⟨_, rfl, Nat.pos_of_ne_zero ok.1, lt, ?_⟩
    split
    next behind => exact (n.taken_growTo behind lt).freed 0
    next there => exact (n.toRegions.taken (Nat.lt_of_not_le there)).freed 0

/-- The world keeps its slot when another is taken. -/
lemma Taken.world (t : m.Taken e m') (n : m.Entities) (pos : 0 < e) : m'.inUse 0 = true := by
  unfold inUse
  rw [t.others 0 n.pos (Nat.ne_of_lt pos)]
  exact n.world

/-- A spawn takes the slot it returns. -/
lemma Entities.of_spawn (n : m.Entities) {F : FloatOps} {now : DWord} {first : Nat}
    (h : m.spawn F now first = .ok (e, m')) : m'.Entities ∧ m.Taken e m' := by
  have layout := (n.toLayout.spawn h).1
  rcases n.spawn F now first with ⟨e', m'', h', ge, -, -, taken⟩ | ⟨h', -⟩
  · rw [h] at h'
    cases h'
    exact ⟨⟨layout, taken.world n (by omega)⟩, taken⟩
  · rw [h] at h'
    cases h'

/-- A claim takes the slot it is given. -/
lemma Entities.of_claim (n : m.Entities) (h : m.claim e = .ok m') : m'.Entities ∧ m.Taken e m' := by
  have layout := (n.toLayout.claim h).1
  rcases n.claim e with ⟨m'', h', pos, -, taken⟩ | ⟨h', -⟩
  · rw [h] at h'
    cases h'
    exact ⟨⟨layout, taken.world n pos⟩, taken⟩
  · rw [h] at h'
    cases h'

/-! ## Removing -/

/-- An entity that a removal leaves alone: the world, one that is free, or one that is guarded. -/
def Stays (m : Memory) (e : Nat) : Prop := e = 0 ∨ m.inUse e = false ∨ m.guarded e = true

/-- Steps that keep the slots do so in sequence. -/
lemma slots_foldl {α : Type} {f : Memory → α → Memory} (keeps : ∀ m a, (f m a).slots = m.slots)
    (l : List α) (m : Memory) : (l.foldl f m).slots = m.slots := by
  induction l generalizing m with
  | nil => rfl
  | cons a l ih => exact (ih (f m a)).trans (keeps m a)

/-- Clearing a field keeps the slots. -/
lemma slots_clearField (word : Nat) : (m.clearField e word).slots = m.slots := by
  unfold clearField
  split <;> rfl

/-- A removal frees a slot in use, or leaves everything as it is. -/
lemma remove_cases (m : Memory) (e : Nat) (now : DWord) (instant : Bool) (clear : List Nat) :
    (∃ m', m.remove e now instant clear = .ok m' ∧ ¬ m.Stays e ∧
        ∀ k, k ≠ e → m'.slots[k]? = m.slots[k]?) ∨
      ∃ kind, m.remove e now instant clear = .error kind ∧ m.Stays e := by
  unfold remove Stays inUse guarded
  split
  next zero => exact .inr ⟨_, rfl, .inl zero⟩
  next positive =>
    cases here : m.slots[e]? with
    | none => exact .inr ⟨_, rfl, .inr (.inl rfl)⟩
    | some slot =>
      dsimp only [Option.map_some, Option.getD_some]
      cases used : slot.inUse with
      | false => exact .inr ⟨_, rfl, .inr (.inl rfl)⟩
      | true =>
        cases kept : slot.guarded with
        | true => exact .inr ⟨_, rfl, .inr (.inr rfl)⟩
        | false =>
          refine .inl ⟨_, rfl, by simp [positive], fun k ne => ?_⟩
          rw [slots_modifySlot]
          simp only [if_neg (Ne.symm ne), Option.map_id']
          rw [slots_foldl fun m word => slots_clearField word]

end Memory

/-! ## Runs -/

/-- What is done to entity slots, with the clock when it is done. -/
inductive EntityOp where
  | spawn (now : DWord)
  | claim (e : Nat)
  | remove (e : Nat) (now : DWord) (instant : Bool)
  | setGuarded (e : Nat) (on : Bool)

/-- The host operation. -/
def EntityOp.host : EntityOp → HostOp
  | .spawn now => .spawn now
  | .claim e => .claim e
  | .remove e now instant => .remove e now instant
  | .setGuarded e on => .setGuarded e on

namespace Core

variable {F : FloatOps} {builtins : Builtins} {core : Core}

/-- The core after a sequence of operations on entity slots. -/
def entityOps (F : FloatOps) (builtins : Builtins) (core : Core) (ops : List EntityOp) : Core :=
  ops.foldl (fun core op => core.host F builtins op.host) core

/-- The spawn defaults keep the slots. -/
lemma slots_applySpawnDefaults (core : Core) (e : Nat) :
    (core.applySpawnDefaults e).mem.slots = core.mem.slots := by
  refine Memory.slots_foldl (fun m d => ?_) _ _
  dsimp only
  split <;> rfl

/-- The spawn defaults keep the entities. -/
lemma entities_applySpawnDefaults {m : Memory} (n : m.Entities) (e : Nat) :
    ({ core with mem := m }.applySpawnDefaults e).mem.Entities := by
  refine ⟨n.toLayout.of_shape (shape_applySpawnDefaults _ e), ?_⟩
  unfold Memory.inUse
  rw [slots_applySpawnDefaults]
  exact n.world

/-- More slots are no fewer entities. -/
lemma numEdicts_le {m m' : Memory} (le : m.slots.length ≤ m'.slots.length) :
    m.numEdicts ≤ m'.numEdicts := by
  unfold Memory.numEdicts
  omega

/-- An operation keeps the slots, and drops none. -/
lemma entities_host (n : core.mem.Entities) (op : EntityOp) :
    (core.host F builtins op.host).mem.Entities ∧
      core.mem.slots.length ≤ (core.host F builtins op.host).mem.slots.length := by
  cases op with
  | spawn now =>
    simp only [EntityOp.host, host]
    split
    next e mem spawned =>
      obtain ⟨entities, taken⟩ := n.of_spawn spawned
      refine ⟨entities_applySpawnDefaults entities e, ?_⟩
      rw [slots_applySpawnDefaults, taken.length]
      exact Nat.le_max_left _ _
    next => exact ⟨n, Nat.le_refl _⟩
  | claim e =>
    simp only [EntityOp.host, host]
    split
    next mem claimed =>
      obtain ⟨entities, taken⟩ := n.of_claim claimed
      refine ⟨entities_applySpawnDefaults entities e, ?_⟩
      rw [slots_applySpawnDefaults, taken.length]
      exact Nat.le_max_left _ _
    next => exact ⟨n, Nat.le_refl _⟩
  | remove e now instant =>
    simp only [EntityOp.host, host]
    rcases core.mem.remove_cases e now instant core.removeClears with
      ⟨m', removed, goes, others⟩ | ⟨kind, kept, -⟩
    · rw [removed]
      have shape := Memory.shape_remove removed
      refine ⟨⟨n.toLayout.of_shape shape, ?_⟩, (congrArg Memory.Shape.slots shape).ge⟩
      unfold Memory.inUse
      rw [others 0 fun world => goes (.inl world.symm)]
      exact n.world
    · rw [kept]
      dsimp only
      rw [mem_warn]
      exact ⟨n, Nat.le_refl _⟩
  | setGuarded e on =>
    have shape := Memory.shape_modifySlot core.mem e fun slot => { slot with guarded := on }
    refine ⟨⟨n.toLayout.of_shape shape, ?_⟩, (congrArg Memory.Shape.slots shape).ge⟩
    obtain ⟨slot, here, used⟩ := Memory.inUse_eq_true.mp n.world
    refine Memory.inUse_eq_true.mpr ⟨if e = 0 then { slot with guarded := on } else slot, ?_, ?_⟩
    · show (core.mem.modifySlot e _).slots[0]? = _
      rw [Memory.slots_modifySlot, here]
      rfl
    · split
      next => exact used
      next => exact used

/-- Every sequence of operations on slots keeps the entities. -/
lemma entities_entityOps (n : core.mem.Entities) (ops : List EntityOp) :
    (core.entityOps F builtins ops).mem.Entities := by
  induction ops generalizing core with
  | nil => exact n
  | cons op rest ih => exact ih (entities_host n op).1

/-- Setting the special globals keeps the slots. -/
lemma slots_fixGlobals (m : Memory) (program : Program) (gbase : Nat) (thisprogs : Word) :
    (fixGlobals m program gbase thisprogs).slots = m.slots := by
  have relocated (l : List Nat) : (l.foldl (fun m word =>
      let at' := gbase + 4 * word
      m.setG at' ((m.g at' &&& 0x7FFFFFFF) + BitVec.ofNat 32 gbase)) m).slots = m.slots := by
    refine Memory.slots_foldl (fun _ _ => ?_) l m
    rfl
  unfold fixGlobals
  cases program.special.thisprogs <;> cases program.special.fasttrackarrays <;> exact relocated _

/-- A new VM has the world. -/
lemma entities_buildCore {program : Program} {config : VmConfig}
    (build : buildCore program builtins config = .ok core) : core.mem.Entities := by
  refine ⟨(layout_buildCore build).mem, ?_⟩
  unfold buildCore at build
  cases plan : planSpace program config with
  | error kind =>
    rw [plan] at build
    cases build
  | ok sp =>
    rw [plan] at build
    cases build
    unfold Memory.inUse
    rw [slots_applySpawnDefaults, mem_registerShared, slots_fixGlobals]
    rfl

/-- **Entity slots are handed out one by one.** -/
theorem entity_slots {program : Program} {config : VmConfig} {start : Core} (F : FloatOps)
    (build : buildCore program builtins config = .ok start) (ops : List EntityOp) :
    let core := start.entityOps F builtins ops
    let m := core.mem
    (m.inUse 0 = true ∧ m.e.size = m.numEdicts * m.stride) ∧
    (∀ now first e m', m.spawn F now first = .ok (e, m') →
      (e ≠ 0 ∧ m.inUse e = false ∧ first ≤ e ∧ e < m.maxEdicts) ∧ m.Taken e m') ∧
    (∀ now first, (∃ kind, m.spawn F now first = .error kind) ↔
      ∀ e, max first 1 ≤ e → e < m.maxEdicts → m.inUse e = true) ∧
    (∀ e m', m.claim e = .ok m' → (e ≠ 0 ∧ e < m.maxEdicts) ∧ m.Taken e m') ∧
    (∀ op : EntityOp, m.numEdicts ≤ (core.host F builtins op.host).mem.numEdicts) ∧
    ∀ e now instant, m.Stays e → (core.host F builtins (.remove e now instant)).mem = m := by
  intro core m
  have n : m.Entities := entities_entityOps (entities_buildCore build) ops
  refine ⟨⟨n.world, ?_⟩, fun now first e m' h => ?_, fun now first => ?_, fun e m' h => ?_,
    fun op => numEdicts_le (entities_host n op).2, fun e now instant stays => ?_⟩
  · rw [n.numEdicts]
    exact n.e_size
  · rcases n.spawn F now first with ⟨e', m'', h', ge, lt, idle, taken⟩ | ⟨h', -⟩
    · rw [h] at h'
      cases h'
      exact ⟨⟨by omega, idle, by omega, lt⟩, taken⟩
    · rw [h] at h'
      cases h'
  · rcases n.spawn F now first with ⟨e, m', h, ge, lt, idle, -⟩ | ⟨h, used⟩
    · rw [h]
      constructor
      · rintro ⟨_, failed⟩
        cases failed
      · intro used
        rw [used e ge lt] at idle
        cases idle
    · exact ⟨fun _ => used, fun _ => ⟨_, h⟩⟩
  · rcases n.claim e with ⟨m'', h', pos, lt, taken⟩ | ⟨h', -⟩
    · rw [h] at h'
      cases h'
      exact ⟨⟨by omega, lt⟩, taken⟩
    · rw [h] at h'
      cases h'
  · simp only [host]
    rcases m.remove_cases e now instant core.removeClears with ⟨_, -, goes, -⟩ | ⟨kind, kept, -⟩
    · exact absurd stays goes
    · rw [kept]
      exact mem_warn _ _

/-- Entity 1 is spawned and freed at once, and entity 3 claimed: a spawn then takes entity 1 again, a claim
takes entity 2 behind it, and the world is not removed. -/
theorem entity_slots_reuse : ∃ (core : Core) (m m' : Memory), core.mem.inUse 3 = true ∧
    core.mem.spawn .onZero 0 1 = .ok (1, m) ∧ core.mem.inUse 1 = false ∧ core.mem.Taken 1 m ∧
    core.mem.claim 2 = .ok m' ∧ core.mem.Taken 2 m' ∧
    (core.host .onZero .none (.remove 0 0 true)).mem = core.mem := by
  have test : (Asm.minimal.boot .none .menu).any (fun vm =>
      let m := (vm.core.entityOps .onZero .none [.spawn 0, .claim 3, .remove 1 0 true]).mem
      m.inUse 3 && (m.spawn .onZero 0 1).toOption.any (fun r => r.1 == 1) &&
        (m.claim 2).toOption.isSome) = true := by decide +kernel
  obtain ⟨vm, boot, test⟩ := (Option.any_eq_true _ _).mp test
  simp only [Bool.and_eq_true] at test
  obtain ⟨⟨used, spawned⟩, claimed⟩ := test
  obtain ⟨r, spawned, one⟩ := (Option.any_eq_true _ _).mp spawned
  obtain ⟨e, m⟩ := r
  cases eq_of_beq one
  obtain ⟨m', claimed⟩ := Option.isSome_iff_exists.mp claimed
  have spawned := Except.eq_ok_of_toOption spawned
  have claimed := Except.eq_ok_of_toOption claimed
  obtain ⟨-, spawns, -, claims, -, removes⟩ := entity_slots .onZero (built_of_boot boot)
    [.spawn 0, .claim 3, .remove 1 0 true]
  obtain ⟨⟨-, idle, -⟩, taken⟩ := spawns _ _ _ _ spawned
  exact ⟨_, m, m', used, spawned, idle, taken, claimed, (claims _ _ claimed).2,
    removes 0 0 true (.inl rfl)⟩

end Core

end Qcvm

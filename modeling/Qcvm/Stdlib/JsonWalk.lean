import Qcvm.Stdlib.JsonWriter
import Qcvm.Interp.FastPath
import Qcvm.Interp.PointerMemory
import Qcvm.Vm.Allocator

/-!
# The document in memory

What a walk over the nodes of a block reads (`Walks`), by type, name, first child and count, and the
ranges of memory it meets. After `json_parse` the walk from the root reads the document, and the
ranges of its nodes and names make up the block and do not overlap (`jsonParse_document`).
-/

namespace Qcvm.Stdlib

open Lib

/-- A range of memory: an address and a length. -/
abbrev MemoryRange := Nat × Nat

/-- The ranges have no byte in common. -/
def Apart (a b : MemoryRange) : Prop := a.1 + a.2 ≤ b.1 ∨ b.1 + b.2 ≤ a.1

/-- A reference to a name: null if the name is empty. -/
def NameAt (core : Core) (name : List Byte) (r : Word) : Prop :=
  if name = [] then r = 0 else core.strBytes r = some name

/-- The range of a node, and that of its name with the NUL. -/
def nodeRanges (p : Nat) (name : List Byte) (r : Word) : List MemoryRange :=
  (p, nodeSize) :: if name = [] then [] else [(r.toNat, name.length + 1)]

/-- The elements of an array from `k` on, with their names. -/
def namedFrom (k : Nat) : List Json → List (List Byte × Json)
  | [] => []
  | e :: es => (decimal k, e) :: namedFrom (k + 1) es

/-- The members of an object with their names as they are stored. -/
def stored (ms : List (List Byte × Json)) : List (List Byte × Json) :=
  ms.map fun p => (qcText p.1, p.2)

mutual

/-- The node at an address has this name, and from it a walk reads the document and meets these
ranges. -/
inductive Walks (core : Core) : List Byte → Json → Nat → List MemoryRange → Prop
  | null {name : List Byte} {p : Nat} {r : Word} : NameAt core name r →
      readNode core p = some ⟨typeNull, r, 0, 0⟩ → Walks core name .null p (nodeRanges p name r)
  | bool {name : List Byte} {p : Nat} {r a b : Word} {v : Bool} : NameAt core name r →
      readNode core p = some ⟨if v then typeTrue else typeFalse, r, a, b⟩ →
      b ++ a = (if v then one else 0) → Walks core name (.bool v) p (nodeRanges p name r)
  | number {name : List Byte} {p : Nat} {r a b : Word} {v : DWord} : NameAt core name r →
      readNode core p = some ⟨typeNumber, r, a, b⟩ → b ++ a = v →
      Walks core name (.number v) p (nodeRanges p name r)
  | string {name : List Byte} {p : Nat} {r a b : Word} {s : List Byte} : NameAt core name r →
      readNode core p = some ⟨typeString, r, a, b⟩ → core.strBytes a = some (qcText s) →
      Walks core name (.string s) p (nodeRanges p name r)
  | array {name : List Byte} {p : Nat} {r a b : Word} {es : List Json}
      {ranges : List MemoryRange} : NameAt core name r →
      readNode core p = some ⟨typeArray, r, a, b⟩ → b.toNat = es.length →
      WalksAll core (namedFrom 0 es) a.toNat ranges →
      Walks core name (.array es) p (nodeRanges p name r ++ ranges)
  | object {name : List Byte} {p : Nat} {r a b : Word} {ms : List (List Byte × Json)}
      {ranges : List MemoryRange} : NameAt core name r →
      readNode core p = some ⟨typeObject, r, a, b⟩ → b.toNat = ms.length →
      WalksAll core (stored ms) a.toNat ranges →
      Walks core name (.object ms) p (nodeRanges p name r ++ ranges)

/-- The nodes from an address on, one next to the other, have these names, and from them walks read
the documents. -/
inductive WalksAll (core : Core) : List (List Byte × Json) → Nat → List MemoryRange → Prop
  | nil {p : Nat} : WalksAll core [] p []
  | cons {name : List Byte} {doc : Json} {rest : List (List Byte × Json)} {p : Nat}
      {ranges ranges' : List MemoryRange} : Walks core name doc p ranges →
      WalksAll core rest (p + nodeSize) ranges' →
      WalksAll core ((name, doc) :: rest) p (ranges ++ ranges')

end

/-- The bytes of a block are in memory, at an address. -/
structure Block (core : Core) (base : Nat) (out : Arr Byte) : Prop where
  small : base + out.size ≤ 2 ^ 31
  read : ∀ i n, 0 < n → i + n ≤ out.size →
    core.mem.read (BitVec.ofNat 32 (base + i)) n = some (out.slice i n)
  text : ∀ i (name : List Byte), i + name.length < out.size → 0 ∉ name →
    out.slice i (name.length + 1) = name ++ [0] →
    core.mem.cstr (BitVec.ofNat 32 (base + i)) = some name

variable {core : Core} {w : Writer} {base offset : Nat} {p : Place JsonLabel}
  {ps : List (Place JsonLabel)}

/-- The ranges of places whose names are stored one after the other. -/
def placeRanges (base : Nat) : Nat → List (Place JsonLabel) → List MemoryRange
  | _, [] => []
  | offset, p :: ps =>
    nodeRanges (base + p.slot * nodeSize) p.label.name (Writer.nameRef base offset p.label.name) ++
      placeRanges base (offset + p.label.width) ps

/-- The place is inside a block of this size. -/
structure FitsBlock (size : Nat) (p : Place JsonLabel) : Prop where
  slot : (p.slot + 1) * nodeSize ≤ size
  children : (p.first + p.count) * nodeSize ≤ size

/-! ## Reading a block -/

namespace Block

variable {out : Arr Byte} (block : Block core base out)

include block

/-- A node that is in the block is read. -/
lemma node {slot : Nat} {v : NodeView} (fits : (slot + 1) * nodeSize ≤ out.size)
    (bytes : out.slice (slot * nodeSize) nodeSize = Writer.nodeBytes v) :
    readNode core (base + slot * nodeSize) = some v := by
  have small := block.small
  rw [Nat.succ_mul] at fits
  have word (k : Nat) (lt : k < 4) :
      ((checkedAdd (base + slot * nodeSize) (4 * k)).bind fun q =>
        core.mem.readU32 (BitVec.ofNat 32 q)) = some (wordOf (Writer.nodeBytes v) k) := by
    rw [nodeSize] at fits
    have address : checkedAdd (base + slot * nodeSize) (4 * k) =
        some (base + (slot * nodeSize + 4 * k)) := by
      rw [checkedAdd_eq_some, u32Max, nodeSize]
      omega
    rw [address, Option.bind_some, Memory.readU32,
      block.read _ 4 (by decide) (by rw [nodeSize]; omega), Option.map_some, ← bytes]
    have one : wordOf (out.slice (slot * nodeSize + 4 * k) (4 * 1)) 0 =
        wordAt out (slot * nodeSize + 4 * k + 4 * 0) := wordOf_slice (by decide)
    have all : wordOf (out.slice (slot * nodeSize) (4 * 4)) k =
        wordAt out (slot * nodeSize + 4 * k) := wordOf_slice lt
    exact congrArg some (one.trans all.symm)
  have ty : wordOf (Writer.nodeBytes v) 0 = v.ty := leWord_leBytes v.ty
  have name : wordOf (Writer.nodeBytes v) 1 = v.name := leWord_leBytes v.name
  have a : wordOf (Writer.nodeBytes v) 2 = v.a := leWord_leBytes v.a
  have b : wordOf (Writer.nodeBytes v) 3 = v.b := leWord_leBytes v.b
  have words := And.intro (word 0 (by decide)) (And.intro (word 1 (by decide))
    (And.intro (word 2 (by decide)) (word 3 (by decide))))
  rw [ty, name, a, b] at words
  obtain ⟨word0, word4, word8, word12⟩ := words
  rw [readNode]
  simp only [word0, word4, word8, word12, Option.pure_def, Option.bind_eq_bind, Option.bind_some]

/-- A name that is in the block is read. -/
lemma name {name : List Byte} (clean : 0 ∉ name)
    (fits : offset + nameBytes name.length ≤ out.size)
    (bytes : out.slice offset (nameBytes name.length) = Writer.nameText name) :
    NameAt core name (Writer.nameRef base offset name) := by
  rw [NameAt, Writer.nameRef]
  cases name with
  | nil => rfl
  | cons c name =>
    have small := block.small
    have width : nameBytes (c :: name).length = (c :: name).length + 1 := if_neg (by simp)
    rw [width] at fits bytes
    rw [if_neg (List.cons_ne_nil _ _), if_neg (List.cons_ne_nil _ _), Writer.addrOf]
    have address : checkedAdd base offset = some (base + offset) := by
      rw [checkedAdd_eq_some, u32Max]
      omega
    have linear : classify (BitVec.ofNat 32 (base + offset)) = .linear _ := classify_of_lt (by
      rw [BitVec.toNat_ofNat]
      omega)
    rw [address, Option.getD_some, Core.strBytes, linear]
    exact block.text offset (c :: name) (by omega) clean bytes

end Block

/-! ## The walk -/

open Writer in
/-- What is stored in a block is a node with its name. -/
lemma Writer.StoredAt.reads (h : w.StoredAt offset p) (block : Block core w.base w.out)
    (fits : FitsBlock w.out.size p) (names : offset + p.label.width ≤ w.out.size)
    (clean : 0 ∉ p.label.name) :
    NameAt core p.label.name (nameRef w.base offset p.label.name) ∧
    ∃ ty a b, readNode core (w.base + p.slot * nodeSize) =
        some ⟨ty, nameRef w.base offset p.label.name, a, b⟩ ∧
      Holds w.strings w.base p.first p.count p.label.kind ty a b := by
  obtain ⟨⟨v, bytes, name, holds⟩, text⟩ := h
  refine ⟨block.name clean names text, v.ty, v.a, v.b, ?_, holds⟩
  rw [block.node fits.slot bytes, ← name]

lemma stored_append {qs : List (Place JsonLabel)} : w.Stored offset (ps ++ qs) ↔
    w.Stored offset ps ∧ w.Stored (offset + Writer.namesOf ps) qs := by
  induction ps generalizing offset with
  | nil => exact (true_and _).symm.to_iff
  | cons p ps ih =>
    rw [List.cons_append, Writer.Stored, Writer.Stored, ih, and_assoc, Writer.namesOf,
      Writer.namesOf, List.map_cons, List.sum_cons, Nat.add_assoc]

lemma placeRanges_append {qs : List (Place JsonLabel)} : placeRanges base offset (ps ++ qs) =
    placeRanges base offset ps ++ placeRanges base (offset + Writer.namesOf ps) qs := by
  induction ps generalizing offset with
  | nil => rfl
  | cons p ps ih =>
    rw [List.cons_append, placeRanges, placeRanges, ih, List.append_assoc, Writer.namesOf,
      Writer.namesOf, List.map_cons, List.sum_cons, Nat.add_assoc]

/-- The places are stored in a block that is in memory. -/
structure InMemory (core : Core) (w : Writer) (offset : Nat) (ps : List (Place JsonLabel)) :
    Prop where
  stored : w.Stored offset ps
  block : Block core w.base w.out
  strings : core.strings = w.strings
  fits : ∀ p ∈ ps, FitsBlock w.out.size p
  names : offset + Writer.namesOf ps ≤ w.out.size

lemma InMemory.split {qs : List (Place JsonLabel)} (h : InMemory core w offset (ps ++ qs)) :
    InMemory core w offset ps ∧ InMemory core w (offset + Writer.namesOf ps) qs := by
  obtain ⟨stored, block, strings, fits, names⟩ := h
  have sum : Writer.namesOf (ps ++ qs) = Writer.namesOf ps + Writer.namesOf qs := by
    rw [Writer.namesOf, List.map_append, List.sum_append_nat]
    rfl
  obtain ⟨front, back⟩ := stored_append.mp stored
  refine ⟨⟨front, block, strings, ?_, by omega⟩, ⟨back, block, strings, ?_, by omega⟩⟩
  · intro p mem
    exact fits p (List.mem_append_left qs mem)
  · intro p mem
    exact fits p (List.mem_append_right ps mem)

/-- The first of the places. -/
lemma InMemory.head (h : InMemory core w offset (p :: ps)) (clean : 0 ∉ p.label.name) :
    NameAt core p.label.name (Writer.nameRef w.base offset p.label.name) ∧
    (∃ ty a b, readNode core (w.base + p.slot * nodeSize) =
        some ⟨ty, Writer.nameRef w.base offset p.label.name, a, b⟩ ∧
      Writer.Holds w.strings w.base p.first p.count p.label.kind ty a b) ∧
    InMemory core w (offset + p.label.width) ps := by
  have names := h.names
  rw [Writer.namesOf, List.map_cons, List.sum_cons] at names
  have apart : InMemory core w offset ([p] ++ ps) := h
  obtain ⟨-, rest⟩ := apart.split
  rw [Writer.namesOf, List.map_singleton, List.sum_singleton] at rest
  obtain ⟨name, node⟩ := h.stored.1.reads h.block (h.fits p List.mem_cons_self) (by omega) clean
  exact ⟨name, node, rest⟩

/-- The children of a container that is in memory. -/
lemma FitsBlock.address {out : Arr Byte} (fits : FitsBlock out.size p)
    (block : Block core base out) :
    (Writer.addrOf base (p.first * nodeSize)).toNat = base + p.first * nodeSize ∧
      (BitVec.ofNat 32 p.count).toNat = p.count := by
  have small := block.small
  have children := fits.children
  rw [Nat.add_mul, nodeSize] at children
  have address : checkedAdd base (p.first * nodeSize) = some (base + p.first * nodeSize) := by
    rw [checkedAdd_eq_some, u32Max, nodeSize]
    omega
  rw [Writer.addrOf, address, Option.getD_some, BitVec.toNat_ofNat, BitVec.toNat_ofNat, nodeSize]
  exact ⟨Nat.mod_eq_of_lt (by omega), Nat.mod_eq_of_lt (by omega)⟩

/-- The temp string of a text that is in memory. -/
lemma strBytes_tempHandle {slot : Nat} {data : Arr Byte} (small : slot < 2 ^ 30)
    (live : core.strings.tempRaw slot = some data) :
    core.strBytes (tempHandle slot) = some (untilNul data) := by
  obtain ⟨tag, index⟩ := (eq_tempHandle_iff small _).mp rfl
  rw [Core.strBytes, classify, if_pos tag, index]
  dsimp only
  rw [live]
  rfl

lemma double_halves (v : DWord) : v.extractLsb' 32 32 ++ v.extractLsb' 0 32 = v := by
  apply BitVec.eq_of_getLsbD_eq
  intro i lt
  rw [BitVec.getLsbD_append, BitVec.getLsbD_extractLsb', BitVec.getLsbD_extractLsb']
  grind

/-- The walk over a document in memory reads it. -/
lemma walks_of_inMemory :
    (∀ doc : Json, ∀ {name : List Byte} {slot next offset}, 0 ∉ name →
      InMemory core w offset ((doc.tree name).places slot next) →
      Walks core name doc (w.base + slot * nodeSize)
        (placeRanges w.base offset ((doc.tree name).places slot next))) ∧
    (∀ es : List Json, ∀ {k slot next offset},
      InMemory core w offset (Rose.placesAll slot next (Json.elementTrees k es)) →
      WalksAll core (namedFrom k es) (w.base + slot * nodeSize)
        (placeRanges w.base offset (Rose.placesAll slot next (Json.elementTrees k es)))) ∧
    ∀ ms : List (List Byte × Json), ∀ {slot next offset},
      InMemory core w offset (Rose.placesAll slot next (Json.memberTrees ms)) →
      WalksAll core (stored ms) (w.base + slot * nodeSize)
        (placeRanges w.base offset (Rose.placesAll slot next (Json.memberTrees ms))) := by
  -- Induction on the document, with its elements and members in the order of their slots.
  refine Json.induct ?_ ?_ ?_ ?_ ?_ ?_ ?_ ?_ ?_ ?_
  · intro name slot next offset clean h
    rw [Json.tree, Rose.places, Rose.placesAll] at h ⊢
    obtain ⟨named, ⟨ty, a, b, node, holds⟩, -⟩ := h.head clean
    cases holds
    rw [placeRanges, placeRanges, List.append_nil]
    exact .null named node
  · intro v name slot next offset clean h
    rw [Json.tree, Rose.places, Rose.placesAll] at h ⊢
    obtain ⟨named, ⟨ty, a, b, node, holds⟩, -⟩ := h.head clean
    cases holds
    rw [placeRanges, placeRanges, List.append_nil]
    exact .bool named node (double_halves _)
  · intro v name slot next offset clean h
    rw [Json.tree, Rose.places, Rose.placesAll] at h ⊢
    obtain ⟨named, ⟨ty, a, b, node, holds⟩, -⟩ := h.head clean
    cases holds
    rw [placeRanges, placeRanges, List.append_nil]
    exact .number named node (double_halves _)
  · intro s name slot next offset clean h
    rw [Json.tree, Rose.places, Rose.placesAll] at h ⊢
    obtain ⟨named, ⟨ty, a, b, node, holds⟩, -⟩ := h.head clean
    cases holds with
    | text small live text =>
      rw [← h.strings] at live
      rw [placeRanges, placeRanges, List.append_nil]
      refine .string named node ?_
      rw [strBytes_tempHandle small live, text]
  · intro es ih name slot next offset clean h
    rw [Json.tree, Rose.places] at h ⊢
    obtain ⟨named, ⟨ty, a, b, node, holds⟩, rest⟩ := h.head clean
    obtain ⟨first, count⟩ := (h.fits _ List.mem_cons_self).address h.block
    cases holds
    rw [placeRanges]
    refine .array named node ?_ ?_
    · rw [count]
      exact Json.length_elementTrees es 0
    · rw [first]
      exact ih rest
  · intro ms ih name slot next offset clean h
    rw [Json.tree, Rose.places] at h ⊢
    obtain ⟨named, ⟨ty, a, b, node, holds⟩, rest⟩ := h.head clean
    obtain ⟨first, count⟩ := (h.fits _ List.mem_cons_self).address h.block
    cases holds
    rw [placeRanges]
    refine .object named node ?_ ?_
    · rw [count]
      exact Json.length_memberTrees ms
    · rw [first]
      exact ih rest
  · intro k slot next offset h
    exact .nil
  · intro e es ihe ihes k slot next offset h
    rw [Json.elementTrees, Rose.placesAll] at h ⊢
    obtain ⟨front, back⟩ := h.split
    have others := ihes back
    rw [placeRanges_append]
    rw [Nat.succ_mul, ← Nat.add_assoc] at others
    exact .cons (ihe (zero_notMem_decimal k) front) others
  · intro slot next offset h
    exact .nil
  · intro key v ms ihv ihms slot next offset h
    rw [Json.memberTrees, Rose.placesAll] at h ⊢
    obtain ⟨front, back⟩ := h.split
    have others := ihms back
    rw [placeRanges_append]
    rw [Nat.succ_mul, ← Nat.add_assoc] at others
    exact .cons (ihv (zero_notMem_qcText key) front) others

/-! ## The ranges of a block -/

/-- The ranges are that of the node and that of its name. -/
lemma mem_nodeRanges {q offset : Nat} {name : List Byte} {r : MemoryRange}
    (address : (Writer.nameRef base offset name).toNat = base + offset ∨ name = [])
    (mem : r ∈ nodeRanges q name (Writer.nameRef base offset name)) :
    r = (q, nodeSize) ∨ r = (base + offset, nameBytes name.length) := by
  rcases List.mem_cons.mp mem with rfl | mem
  · exact Or.inl rfl
  · split_ifs at mem with empty
    · cases mem
    · rw [List.mem_singleton] at mem
      rw [mem, address.resolve_right empty, nameBytes,
        if_neg (fun zero => empty (List.eq_nil_of_length_eq_zero zero))]
      exact Or.inr rfl

lemma nameRef_toNat {name : List Byte} (small : base + offset ≤ 2 ^ 31) :
    (Writer.nameRef base offset name).toNat = base + offset ∨ name = [] := by
  rw [Writer.nameRef, Writer.addrOf]
  split_ifs with empty
  · exact Or.inr empty
  · have address : checkedAdd base offset = some (base + offset) := by
      rw [checkedAdd_eq_some, u32Max]
      omega
    rw [address, Option.getD_some, BitVec.toNat_ofNat]
    exact Or.inl (Nat.mod_eq_of_lt (by omega))

/-- The ranges of places are their slots and ranges in the names area. -/
lemma mem_placeRanges {r : MemoryRange} (small : base + (offset + Writer.namesOf ps) ≤ 2 ^ 31)
    (mem : r ∈ placeRanges base offset ps) :
    (∃ p ∈ ps, r = (base + p.slot * nodeSize, nodeSize)) ∨
      base + offset ≤ r.1 ∧ r.1 + r.2 ≤ base + (offset + Writer.namesOf ps) := by
  induction ps generalizing offset with
  | nil => cases mem
  | cons p ps ih =>
    have sum : Writer.namesOf (p :: ps) = p.label.width + Writer.namesOf ps := rfl
    rw [sum] at small ⊢
    rcases List.mem_append.mp mem with here | later
    · rcases mem_nodeRanges (nameRef_toNat (by omega)) here with rfl | rfl
      · exact Or.inl ⟨p, List.mem_cons_self, rfl⟩
      · right
        rw [JsonLabel.width]
        dsimp only
        omega
    · rcases ih (by omega) later with ⟨q, other, rfl⟩ | inside
      · exact Or.inl ⟨q, List.mem_cons_of_mem p other, rfl⟩
      · right
        omega

/-- The ranges of places in different slots do not overlap. -/
lemma pairwise_placeRanges (small : base + (offset + Writer.namesOf ps) ≤ 2 ^ 31)
    (slots : ∀ p ∈ ps, (p.slot + 1) * nodeSize ≤ offset)
    (distinct : (ps.map Place.slot).Nodup) : (placeRanges base offset ps).Pairwise Apart := by
  induction ps generalizing offset with
  | nil => exact List.Pairwise.nil
  | cons p ps ih =>
    have sum : Writer.namesOf (p :: ps) = p.label.width + Writer.namesOf ps := rfl
    have slot := slots p List.mem_cons_self
    have address := @nameRef_toNat base offset p.label.name (by omega)
    rw [List.map_cons, List.nodup_cons] at distinct
    rw [sum] at small
    rw [Nat.succ_mul] at slot
    rw [placeRanges, List.pairwise_append]
    refine ⟨?_, ?_, ?_⟩
    · refine List.pairwise_cons.mpr ⟨?_, ?_⟩
      · intro r mem
        split_ifs at mem with empty
        · cases mem
        · rw [List.mem_singleton] at mem
          rw [mem, address.resolve_right empty]
          left
          dsimp only
          omega
      · split_ifs
        · exact List.Pairwise.nil
        · exact List.pairwise_singleton _ _
    · refine ih (by omega) ?_ distinct.2
      intro q mem
      exact (slots q (List.mem_cons_of_mem p mem)).trans (Nat.le_add_right _ _)
    · intro r here r' later
      have there := mem_placeRanges (by omega) later
      rcases mem_nodeRanges address here with rfl | rfl
      · rcases there with ⟨q, mem, rfl⟩ | inside
        · have ne : q.slot ≠ p.slot := fun same => distinct.1 (same ▸ List.mem_map_of_mem mem)
          rcases Nat.lt_or_gt_of_ne ne with less | more
          · have le : (q.slot + 1) * nodeSize ≤ p.slot * nodeSize :=
              Nat.mul_le_mul_right nodeSize less
            rw [Nat.succ_mul] at le
            right
            dsimp only
            omega
          · have le : (p.slot + 1) * nodeSize ≤ q.slot * nodeSize :=
              Nat.mul_le_mul_right nodeSize more
            rw [Nat.succ_mul] at le
            left
            dsimp only
            omega
        · left
          dsimp only
          omega
      · rw [← JsonLabel.width]
        rcases there with ⟨q, mem, rfl⟩ | inside
        · have other := slots q (List.mem_cons_of_mem p mem)
          rw [Nat.succ_mul] at other
          right
          dsimp only
          omega
        · left
          dsimp only
          omega

/-- The ranges make up the slots and the names. -/
lemma sum_placeRanges : ((placeRanges base offset ps).map Prod.snd).sum =
    ps.length * nodeSize + Writer.namesOf ps := by
  induction ps generalizing offset with
  | nil => rfl
  | cons p ps ih =>
    have sum : Writer.namesOf (p :: ps) = p.label.width + Writer.namesOf ps := rfl
    have name : ((nodeRanges (base + p.slot * nodeSize) p.label.name
        (Writer.nameRef base offset p.label.name)).map Prod.snd).sum =
          nodeSize + p.label.width := by
      rw [nodeRanges, JsonLabel.width, nameBytes]
      cases p.label.name with
      | nil => rfl
      | cons c name => simp
    rw [placeRanges, List.map_append, List.sum_append_nat, ih, name, sum, List.length_cons,
      Nat.succ_mul]
    omega

/-! ## The block in memory -/

/-- A block of the heap that was written is in memory. -/
lemma block_of_heap {m : Memory} {off : Nat} {out : Arr Byte} (layout : m.Layout)
    (fits : off + out.size ≤ m.heap.data.size) (pos : 0 < out.size) :
    ∃ m', m.write (BitVec.ofNat 32 (m.hBase + off)) (out.slice 0 out.size) = .ok m' ∧
      ∀ core : Core, core.mem = m' → Block core (m.hBase + off) out := by
  have bound := layout.h_le
  have base : 0 < m.hBase := by
    have base_pos := layout.base_pos
    have e_end := layout.e_end
    omega
  -- The block lies below the end of region H, so its addresses do not wrap.
  have address (i : Nat) (le : i ≤ out.size) :
      (BitVec.ofNat 32 (m.hBase + off + i)).toNat = m.hBase + off + i := by
    rw [BitVec.toNat_ofNat]
    exact Nat.mod_eq_of_lt (by omega)
  have found {m' : Memory} (layout' : m'.Layout) (hBase : m'.hBase = m.hBase)
      (size : m'.heap.data.size = m.heap.data.size) (i n : Nat) (pos : 0 < n)
      (inside : i + n ≤ out.size) :
      m'.locate (BitVec.ofNat 32 (m.hBase + off + i)) n = some (.h (off + i)) := by
    rw [layout'.locate_eq_some pos, address i (by omega), hBase]
    refine Or.inr (Or.inr ⟨?_, ?_⟩)
    · congr 1
      omega
    · rw [Memory.InH, hBase, size]
      omega
  have here := found layout rfl rfl 0 out.size pos (by omega)
  rw [Nat.add_zero, Nat.add_zero] at here
  have length : (out.slice 0 out.size).length = out.size := Arr.length_slice _ _ _
  refine ⟨_, Memory.write_eq_ok.mpr ⟨.h off, Memory.checkWrite_eq_ok.mpr ⟨?_, ?_, nofun⟩, ?_,
    rfl⟩, ?_⟩
  · intro null
    have zero := congrArg BitVec.toNat null
    have nonzero := address 0 (by omega)
    rw [Nat.add_zero] at nonzero
    rw [nonzero] at zero
    change m.hBase + off = 0 at zero
    omega
  · rw [length]
    exact here
  · rw [length]
    exact fits
  · intro core mem
    have layout' : core.mem.Layout := by
      rw [mem]
      exact layout.of_shape rfl
    have hBase : core.mem.hBase = m.hBase := by rw [mem]; rfl
    have size : core.mem.heap.data.size = m.heap.data.size := by rw [mem]; rfl
    have bytes (i : Nat) (lt : i < out.size) :
        core.mem.heap.data.get (off + i) = out.get i := by
      rw [mem]
      change (m.heap.data.write off (out.slice 0 out.size)).get (off + i) = _
      rw [Arr.get_write_of_inside (by omega) (by omega) (by omega), Nat.add_sub_cancel_left,
        Arr.getD_slice out lt, Nat.zero_add]
    refine ⟨by omega, ?_, ?_⟩
    · intro i n pos inside
      rw [layout'.toRegions.read_eq, found layout' hBase size i n pos inside, Option.map_some]
      refine congrArg some (List.map_congr_left ?_)
      intro k mem
      have lt := List.mem_range.mp mem
      change core.mem.heap.data.get (off + i + k) = _
      rw [Nat.add_assoc, bytes _ (by omega)]
    · intro i name inside clean text
      have byte (k : Nat) (le : k ≤ name.length) : out.get (i + k) = (name ++ [0]).getD k 0 := by
        rw [← text]
        exact (out.getD_slice (by omega)).symm
      rw [Memory.cstr, found layout' hBase size i 1 (by decide) (by omega)]
      refine congrArg some (Writer.cstrAt_eq clean (by omega) ?_ ?_)
      · intro k lt
        rw [Nat.add_assoc, bytes _ (by omega), byte k (by omega),
          List.getD_append _ _ _ _ lt]
      · rw [Nat.add_assoc, bytes _ (by omega), byte _ (Nat.le_refl _),
          List.getD_append_right _ _ _ _ (Nat.le_refl _), Nat.sub_self]
        rfl

/-! ## The document -/

/-- The first pass measures the places that the second writes. -/
lemma measure_places {m : Measure} {doc : Json} {limit : Nat} (h : measure doc limit = some m)
    (small : m.size ≤ u32Max) :
    m.nodes = ((doc.tree []).places 0 1).length ∧
      m.names = Writer.namesOf ((doc.tree []).places 0 1) ∧
      m.counts = countsOf (doc.tree []).preorder := by
  have bound : m.nodes ≤ u32Max := by
    rw [Measure.size, nodeSize] at small
    omega
  have measured : Measures ⟨0, 0, limit, []⟩ m (doc.tree []).preorder :=
    Measure.measures_node.1 doc h bound
  obtain ⟨nodes, names, counts⟩ := measured
  have widths := (doc.tree []).map_places (fun label _ => label.width) 0 1
  refine ⟨?_, ?_, counts⟩
  · rw [nodes, Rose.length_places]
    exact Nat.zero_add _
  · rw [names, Writer.namesOf, widths]
    exact Nat.zero_add _

/-- The block is as large as the places need. -/
lemma room_writer {m : Measure} {core : Core} {doc : Json} {limit base : Nat}
    (h : measure doc limit = some m) (small : m.size ≤ u32Max) (strings : core.strings.Exact) :
    (m.writer core base).Room ((doc.tree []).places 0 1) ∧
      ∀ p ∈ (doc.tree []).places 0 1, FitsBlock m.size p := by
  obtain ⟨nodes, names, -⟩ := measure_places h small
  have slots := (doc.tree []).slots_places 0 1
  have count := (doc.tree []).length_preorder
  rw [Rose.length_places, count] at nodes
  have slot : ∀ p ∈ (doc.tree []).places 0 1, p.slot < m.nodes := by
    intro p mem
    have taken := slots.subset (List.mem_map_of_mem mem)
    rw [List.mem_cons, List.mem_range'_1] at taken
    omega
  have slotFits : ∀ p ∈ (doc.tree []).places 0 1, (p.slot + 1) * nodeSize ≤ m.nodes * nodeSize := by
    intro p mem
    exact Nat.mul_le_mul_right nodeSize (slot p mem)
  refine ⟨⟨slotFits, ?_, ?_, ?_, strings⟩, ?_⟩
  · rw [← names]
    exact Nat.le_refl _
  · rw [slots.nodup_iff, List.nodup_cons, List.mem_range'_1]
    exact ⟨by omega, List.nodup_range'⟩
  · intro i _
    change (Arr.empty.resize m.size 0).get i = 0
    exact Arr.get_resize_of_le (Nat.zero_le _)
  · intro p mem
    have children := (doc.tree []).first_le_places mem
    have le : (p.first + p.count) * nodeSize ≤ m.nodes * nodeSize :=
      Nat.mul_le_mul_right nodeSize (by omega)
    have le' := slotFits p mem
    rw [Measure.size] at *
    exact ⟨by omega, by omega⟩

/-- The second pass runs over the places of the document. -/
lemma write_run {m : Measure} {core : Core} {doc : Json} {limit base : Nat}
    (h : measure doc limit = some m) (small : m.size ≤ u32Max) :
    m.write core base doc = Writer.run ((doc.tree []).places 0 1) (m.writer core base) ∧
      ((m.write core base doc).1 = true → (m.write core base doc).2.nextNode = m.nodes) := by
  obtain ⟨nodes, -, counts⟩ := measure_places h small
  have start : (m.writer core base).counts = countsOf (doc.tree []).preorder ++ [] := by
    rw [List.append_nil]
    exact counts
  have pass : m.write core base doc = Writer.run ((doc.tree []).places 0 1) (m.writer core base) ∧
      (m.writer core base).Takes (Writer.run ((doc.tree []).places 0 1) (m.writer core base))
        (doc.tree []).beneath [] := Writer.value_run.1 doc start
  refine ⟨pass.1, ?_⟩
  intro ok
  rw [pass.1] at ok ⊢
  rw [(pass.2 ok).2, nodes, Rose.length_places, Rose.length_preorder]
  exact Nat.add_comm _ _

/-- What the second pass leaves when it does not fail. -/
lemma write_document {m : Measure} {core : Core} {doc : Json} {limit base : Nat}
    (h : measure doc limit = some m) (small : m.size ≤ u32Max) (strings : core.strings.Exact)
    (ok : (m.write core base doc).1 = true) :
    (m.writer core base).Wrote (m.write core base doc).2 ((doc.tree []).places 0 1) ∧
      (m.write core base doc).2.Stored (m.nodes * nodeSize) ((doc.tree []).places 0 1) := by
  obtain ⟨run, -⟩ := @write_run m core doc limit base h small
  rw [run] at ok ⊢
  exact Writer.run_stored (room_writer h small strings).1 ok

/-- The walk over a block that holds what the second pass leaves. -/
lemma walks_written {m : Measure} {core core' : Core} {doc : Json} {limit base : Nat}
    (h : measure doc limit = some m) (small : m.size ≤ u32Max) (strings : core.strings.Exact)
    (ok : (m.write core base doc).1 = true)
    (block : Block core' base (m.write core base doc).2.out)
    (same : core'.strings = (m.write core base doc).2.strings) :
    ∃ ranges, Walks core' [] doc base ranges ∧ ranges.Pairwise Apart ∧
      (∀ r ∈ ranges, base ≤ r.1 ∧ r.1 + r.2 ≤ base + m.size) ∧
      (ranges.map Prod.snd).sum = m.size := by
  obtain ⟨nodes, names, -⟩ := measure_places h small
  obtain ⟨room, fits⟩ := @room_writer m core doc limit base h small strings
  obtain ⟨wrote, stored⟩ := write_document h small strings ok
  have size : (m.write core base doc).2.out.size = m.size := wrote.size
  have begins : (m.write core base doc).2.base = base := wrote.base
  have total : m.nodes * nodeSize + Writer.namesOf ((doc.tree []).places 0 1) = m.size := by
    rw [← names]
    rfl
  have bound := block.small
  rw [size, ← total] at bound
  have inMemory : InMemory core' (m.write core base doc).2 (m.nodes * nodeSize)
      ((doc.tree []).places 0 1) := by
    refine ⟨stored, begins.symm ▸ block, same, ?_, ?_⟩
    · rw [size]
      exact fits
    · rw [size, total]
  have walk := walks_of_inMemory.1 doc List.not_mem_nil inMemory
  rw [begins, Nat.zero_mul, Nat.add_zero] at walk
  refine ⟨_, walk, pairwise_placeRanges bound room.slots room.distinct, ?_, ?_⟩
  · intro r mem
    rw [← total]
    rcases mem_placeRanges bound mem with ⟨p, place, rfl⟩ | inside
    · have slot := room.slots p place
      change (p.slot + 1) * nodeSize ≤ m.nodes * nodeSize at slot
      rw [Nat.succ_mul] at slot
      dsimp only
      omega
    · omega
  · rw [sum_placeRanges, ← nodes, total]

/-- An allocation on the heap: where the block is, and what is left as it was. -/
lemma heapAlloc_spec {core core' : Core} {n base : Nat} (layout : core.mem.Layout)
    (heap : core.mem.heap.Sound) (h : heapAlloc core n = some (base, core')) :
    ∃ off, base = core'.mem.hBase + off ∧ off + n ≤ core'.mem.heap.data.size ∧
      core'.mem.Layout ∧ core'.strings = core.strings := by
  obtain ⟨off, allocated, h⟩ := Option.bind_eq_some_iff.mp h
  obtain ⟨address, sum, made⟩ := Option.map_eq_some_iff.mp h
  obtain ⟨-, rfl⟩ := checkedAdd_eq_some.mp sum
  cases made
  obtain ⟨size, block, -⟩ := heap.of_alloc allocated
  obtain ⟨bounded, max⟩ := Heap.alloc_bounded layout.heap n
  have inside := block.inside
  obtain ⟨le, -⟩ := roundUp_eq_some block.rounded
  refine ⟨off, rfl, ?_, { layout with heap := bounded, h_end := ?_ }, rfl⟩
  · change off + n ≤ (core.mem.heap.alloc n).2.data.size
    omega
  · have h_end := layout.h_end
    change core.mem.hBase + (core.mem.heap.alloc n).2.max ≤ 2 ^ 31
    rw [max]
    exact h_end

/-- `json_parse` builds exactly the document, when there is enough memory and there are enough temp
strings: the second pass drops no write and ends where the first has measured, the walk from the
root reads the document, and the ranges that it meets make up the block without overlapping. -/
theorem jsonParse_document {core : Core} {doc : Json} (layout : core.mem.Layout)
    (heap : core.mem.heap.Sound) (strings : core.strings.Exact)
    (memory : (jsonParse core doc).1 ≠ .outOfMemory)
    (temps : (jsonParse core doc).1 ≠ .outOfTempStrings) :
    ∃ m base core', measure doc core.config.limits.heapBytes = some m ∧
      heapAlloc core m.size = some (base, core') ∧ (jsonParse core doc).1 = .root base ∧
      (m.write core' base doc).2.dropped = 0 ∧ (m.write core' base doc).2.nextNode = m.nodes ∧
      (m.write core' base doc).2.nextName = m.size ∧
      ∃ ranges, Walks (jsonParse core doc).2 [] doc base ranges ∧ ranges.Pairwise Apart ∧
        (∀ r ∈ ranges, base ≤ r.1 ∧ r.1 + r.2 ≤ base + m.size) ∧
        (ranges.map Prod.snd).sum = m.size := by
  rw [jsonParse] at memory temps ⊢
  cases measured : measure doc core.config.limits.heapBytes with
  | none =>
    rw [measured] at memory
    exact absurd rfl memory
  | some m =>
    rw [measured] at memory temps
    dsimp only at memory temps ⊢
    have small : m.size ≤ u32Max := by
      by_contra large
      rw [if_pos (Nat.not_le.mp large)] at memory
      exact memory rfl
    rw [if_neg (Nat.not_lt.mpr small)] at memory temps ⊢
    cases allocated : heapAlloc core m.size with
    | none =>
      rw [allocated] at memory
      exact absurd rfl memory
    | some r =>
      obtain ⟨base, core'⟩ := r
      rw [allocated] at memory temps
      dsimp only at memory temps ⊢
      obtain ⟨off, rfl, fits, layout', kept⟩ := heapAlloc_spec layout heap allocated
      obtain ⟨run, nextNode⟩ := @write_run m core' doc _ (core'.mem.hBase + off) measured small
      have ok : (m.write core' (core'.mem.hBase + off) doc).1 = true := by
        cases passed : (m.write core' (core'.mem.hBase + off) doc).1 with
        | true => rfl
        | false =>
          have failed : (m.write core' (core'.mem.hBase + off) doc).2.failed = true := by
            rw [run] at passed ⊢
            exact Writer.failed_of_run passed
          rw [passed, failed] at temps
          exact absurd rfl temps
      -- The walk reads back what the writer wrote, into the block the heap gave.
      have exact' : core'.strings.Exact := kept ▸ strings
      obtain ⟨wrote, -⟩ := write_document measured small exact' ok
      have size : (m.write core' (core'.mem.hBase + off) doc).2.out.size = m.size := wrote.size
      obtain ⟨nodes, names, -⟩ := measure_places measured small
      have nextName : (m.write core' (core'.mem.hBase + off) doc).2.nextName = m.size := by
        rw [wrote.nextName, ← names]
        rfl
      have pos : 0 < m.size := by
        rw [Measure.size, nodes, Rose.length_places, Rose.length_preorder, nodeSize]
        omega
      rw [← size] at fits pos
      obtain ⟨mem, write, blocks⟩ := block_of_heap layout' fits pos
      rw [size] at write
      rw [if_pos ok, write]
      exact ⟨m, _, core', rfl, allocated, rfl, wrote.dropped, nextNode ok, nextName,
        walks_written measured small exact' ok (blocks _ rfl) rfl⟩

/-- A core with room for blocks and temp strings. -/
def roomyCore : Core :=
  { Core.bare with mem := { Core.bare.mem with heap := .new 4096 }, strings := .new 4 64 }

/-- The document `{"a": [true, "x"], "": null, "a": 0}`. -/
def sampleDoc : Json :=
  .object [([97], .array [.bool true, .string [120]]), ([], .null), ([97], .number 0)]

theorem jsonParse_document_sample :
    ∃ m base core', measure sampleDoc roomyCore.config.limits.heapBytes = some m ∧
      heapAlloc roomyCore m.size = some (base, core') ∧
      (jsonParse roomyCore sampleDoc).1 = .root base ∧
      (m.write core' base sampleDoc).2.dropped = 0 ∧
      (m.write core' base sampleDoc).2.nextNode = m.nodes ∧
      (m.write core' base sampleDoc).2.nextName = m.size ∧
      ∃ ranges, Walks (jsonParse roomyCore sampleDoc).2 [] sampleDoc base ranges ∧
        ranges.Pairwise Apart ∧ (∀ r ∈ ranges, base ≤ r.1 ∧ r.1 + r.2 ≤ base + m.size) ∧
        (ranges.map Prod.snd).sum = m.size := by
  have layout : roomyCore.mem.Layout :=
    { s_le := Nat.le_refl 16
      e_size := rfl
      fields_le := by decide
      slots_le := by decide
      base_pos := by decide
      slots_le_max := Nat.le_refl 1
      e_end := by decide
      heap := Nat.zero_le _
      h_end := by decide }
  have memory : (jsonParse roomyCore sampleDoc).1 ≠ .outOfMemory := by decide +kernel
  have temps : (jsonParse roomyCore sampleDoc).1 ≠ .outOfTempStrings := by decide +kernel
  exact jsonParse_document layout (Heap.sound_new 4096 (by decide)) (Strings.exact_new 4 64) memory
    temps

end Qcvm.Stdlib

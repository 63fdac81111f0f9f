import Qcvm.Lib.Rose
import Qcvm.Stdlib.Json

/-!
# The layout of a document

A document is laid out as a tree of labelled nodes (`Json.tree`): the name of a node and what is
stored in it. The first pass measures that tree (`measures_node`): its nodes, the bytes of its names
and, in preorder, the child counts of its containers.
-/

namespace Qcvm.Stdlib

open Lib

/-- What is stored in a node: a type and its two value words, a text, or children. -/
inductive JsonKind where
  | leaf (ty a b : Word)
  | text (s : List Byte)
  | container (ty : Word)

/-- A type with a double. -/
def doubleKind (ty : Word) (v : DWord) : JsonKind := .leaf ty (v.extractLsb' 0 32) (v.extractLsb' 32 32)

/-- The name of a node, as it is stored, and what is stored in it. -/
structure JsonLabel where
  name : List Byte
  kind : JsonKind

/-- The bytes of the names area that a node takes. -/
def JsonLabel.width (label : JsonLabel) : Nat := nameBytes label.name.length

/-- The child count that is recorded for a node. -/
def JsonLabel.recorded (label : JsonLabel) (n : Nat) : Option Nat :=
  match label.kind with
  | .container _ => some n
  | _ => none

namespace Json

/-- What holds of a document if it holds of the values inside it, one after the other, holds of
every document. -/
theorem induct {P : Json → Prop} {Q : List Json → Prop} {R : List (List Byte × Json) → Prop}
    (null : P .null) (bool : ∀ v, P (.bool v)) (number : ∀ v, P (.number v))
    (string : ∀ v, P (.string v)) (array : ∀ es, Q es → P (.array es))
    (object : ∀ ms, R ms → P (.object ms)) (nil : Q []) (cons : ∀ e es, P e → Q es → Q (e :: es))
    (empty : R []) (member : ∀ key v ms, P v → R ms → R ((key, v) :: ms)) :
    (∀ doc, P doc) ∧ (∀ es, Q es) ∧ ∀ ms, R ms := by
  have docs : ∀ doc, P doc := @Json.rec P Q R (fun p => P p.2) null bool number string array object
    nil cons empty (fun p ms => member p.1 p.2 ms) fun _ _ h => h
  refine ⟨docs, fun es => ?_, fun ms => ?_⟩
  · induction es with
    | nil => exact nil
    | cons e es ih => exact cons e es (docs e) ih
  · induction ms with
    | nil => exact empty
    | cons p ms ih => exact member p.1 p.2 ms (docs p.2) ih

mutual

/-- The nodes of a document with the given name. -/
def tree (name : List Byte) : Json → Rose JsonLabel
  | .null => .node ⟨name, .leaf typeNull 0 0⟩ []
  | .bool v => .node ⟨name, doubleKind (if v then typeTrue else typeFalse) (if v then one else 0)⟩ []
  | .number v => .node ⟨name, doubleKind typeNumber v⟩ []
  | .string v => .node ⟨name, .text v⟩ []
  | .array es => .node ⟨name, .container typeArray⟩ (elementTrees 0 es)
  | .object ms => .node ⟨name, .container typeObject⟩ (memberTrees ms)

/-- The nodes of the elements from `k` on, which are named by their index. -/
def elementTrees (k : Nat) : List Json → List (Rose JsonLabel)
  | [] => []
  | e :: es => e.tree (decimal k) :: elementTrees (k + 1) es

/-- The nodes of members, which are named by their keys. -/
def memberTrees : List (List Byte × Json) → List (Rose JsonLabel)
  | [] => []
  | (key, v) :: ms => v.tree (qcText key) :: memberTrees ms

end

/-- Every element has a tree. -/
lemma length_elementTrees (es : List Json) (k : Nat) : (elementTrees k es).length = es.length := by
  induction es generalizing k with
  | nil => rfl
  | cons e es ih => rw [elementTrees, List.length_cons, List.length_cons, ih]

/-- Every member has a tree. -/
lemma length_memberTrees (ms : List (List Byte × Json)) : (memberTrees ms).length = ms.length := by
  induction ms with
  | nil => rfl
  | cons p ms ih => rw [memberTrees, List.length_cons, List.length_cons, ih]

end Json

/-! ## Texts -/

/-- `qc_len` is the length of the text. -/
lemma length_qcText (s : List Byte) : (qcText s).length = qcLen s := by
  induction s with
  | nil => rfl
  | cons b s ih =>
    change ((if b = 0 then [0xC0, 0x80] else [b]) ++ qcText s).length = _
    rw [List.length_append, ih, qcLen, qcLen, List.countP_cons, List.length_cons]
    by_cases zero : b = 0
    · rw [if_pos zero, if_pos (by simpa using zero), List.length_cons, List.length_singleton]
      omega
    · rw [if_neg zero, if_neg (by simpa using zero), List.length_singleton]
      omega

/-- A text holds no zero byte. -/
lemma zero_notMem_qcText (s : List Byte) : 0 ∉ qcText s := by
  intro mem
  obtain ⟨b, -, mem⟩ := List.mem_flatMap.mp mem
  split_ifs at mem with zero
  · revert mem
    decide
  · exact zero (List.mem_singleton.mp mem).symm

/-- The decimal digits of an index are those that were measured. -/
lemma length_decimal (i : Nat) : (decimal i).length = indexDigits i := by
  induction i using Nat.strongRecOn with
  | ind i ih =>
    rw [decimal]
    by_cases small : i < 10
    · rw [dif_pos small, indexDigits, Nat.log_of_lt small, List.length_singleton]
      split <;> rfl
    · have digits := Nat.log_of_one_lt_of_le (by decide : 1 < 10) (Nat.not_lt.mp small)
      rw [dif_neg small, List.length_append, ih (i / 10) (by omega), List.length_singleton,
        indexDigits, indexDigits, if_neg (by omega), if_neg (by omega), digits]

/-- A decimal number holds no zero byte. -/
lemma zero_notMem_decimal (i : Nat) : 0 ∉ decimal i := by
  have digit : ∀ d < 10, 0 ∉ [BitVec.ofNat 8 (48 + d)] := by decide
  induction i using Nat.strongRecOn with
  | ind i ih =>
    rw [decimal]
    by_cases small : i < 10
    · rw [dif_pos small]
      exact digit i small
    · rw [dif_neg small, List.mem_append, not_or]
      exact ⟨ih (i / 10) (by omega), digit (i % 10) (Nat.mod_lt i (by decide))⟩

/-! ## Pass 1 -/

/-- The counts that the first pass records for nodes in preorder. -/
def countsOf (l : List (JsonLabel × Nat)) : List Nat := l.filterMap fun p => p.1.recorded p.2

/-- A label that records nothing adds no count. -/
lemma countsOf_of_none {label : JsonLabel} {n : Nat} {l : List (JsonLabel × Nat)}
    (h : label.recorded n = none) : countsOf ((label, n) :: l) = countsOf l :=
  List.filterMap_cons_none (f := fun p : JsonLabel × Nat => p.1.recorded p.2) h

/-- A label that records its count adds it. -/
lemma countsOf_of_some {label : JsonLabel} {n : Nat} {l : List (JsonLabel × Nat)}
    (h : label.recorded n = some n) : countsOf ((label, n) :: l) = n :: countsOf l :=
  List.filterMap_cons_some (f := fun p : JsonLabel × Nat => p.1.recorded p.2) h

/-- The counts of labels in sequence. -/
lemma countsOf_append (l l' : List (JsonLabel × Nat)) :
    countsOf (l ++ l') = countsOf l ++ countsOf l' := List.filterMap_append

/-- `m'` is `m` with these nodes measured. -/
structure Measures (m m' : Measure) (l : List (JsonLabel × Nat)) : Prop where
  nodes : m'.nodes = m.nodes + l.length
  names : m'.names = m.names + (l.map fun p => p.1.width).sum
  counts : m'.counts = m.counts ++ countsOf l

namespace Measures

variable {m m' m'' : Measure} {l l' : List (JsonLabel × Nat)} {label : JsonLabel} {name n : Nat}

/-- Nothing was measured. -/
lemma refl (m : Measure) : Measures m m [] where
  nodes := rfl
  names := rfl
  counts := (List.append_nil _).symm

/-- What was measured in sequence was measured. -/
lemma trans (h : Measures m m' l) (h' : Measures m' m'' l') : Measures m m'' (l ++ l') where
  nodes := by rw [h'.nodes, h.nodes, List.length_append, Nat.add_assoc]
  names := by rw [h'.names, h.names, List.map_append, List.sum_append_nat, Nat.add_assoc]
  counts := by rw [h'.counts, h.counts, countsOf_append, List.append_assoc]

end Measures

namespace Measure

variable {m m' : Measure} {name n slot : Nat} {r : Measure × Nat}

/-- Entering a node counts it and its name. -/
lemma of_enter (h : m.enter name = some m') :
    m' = { m with nodes := m.nodes + 1, names := m.names + nameBytes name } := by
  rw [enter] at h
  split_ifs at h
  cases h
  rfl

/-- Every node counts. -/
lemma nodes_mono :
    (∀ doc, ∀ {m m' : Measure} {name}, m.node name doc = some m' → m.nodes < m'.nodes) ∧
    (∀ es, ∀ {m : Measure} {n r}, m.elements n es = some r → m.nodes ≤ r.1.nodes) ∧
    ∀ ms, ∀ {m : Measure} {n r}, m.members n ms = some r → m.nodes ≤ r.1.nodes := by
  have leaf {m m' : Measure} {name} (h : m.enter name = some m') : m.nodes < m'.nodes := by
    rw [of_enter h]
    exact Nat.lt_succ_self _
  refine Json.induct ?_ ?_ ?_ ?_ ?_ ?_ ?_ ?_ ?_ ?_
  · intro m m' name h
    exact leaf (by rwa [node] at h)
  · intro v m m' name h
    exact leaf (by rwa [node] at h)
  · intro v m m' name h
    exact leaf (by rwa [node] at h)
  · intro v m m' name h
    exact leaf (by rwa [node] at h)
  · intro es ih m m' name h
    rw [node] at h
    obtain ⟨entered, first, h⟩ := Option.bind_eq_some_iff.mp h
    obtain ⟨r, inside, rfl⟩ := Option.map_eq_some_iff.mp h
    exact Nat.lt_of_lt_of_le (leaf first) (@ih entered.openSlot 0 r inside)
  · intro ms ih m m' name h
    rw [node] at h
    obtain ⟨entered, first, h⟩ := Option.bind_eq_some_iff.mp h
    obtain ⟨r, inside, rfl⟩ := Option.map_eq_some_iff.mp h
    exact Nat.lt_of_lt_of_le (leaf first) (@ih entered.openSlot 0 r inside)
  · intro m n r h
    rw [elements] at h
    cases h
    exact Nat.le_refl _
  · intro e es first rest m n r h
    rw [elements] at h
    obtain ⟨one, h, h'⟩ := Option.bind_eq_some_iff.mp h
    exact (first h).le.trans (rest h')
  · intro m n r h
    rw [members] at h
    cases h
    exact Nat.le_refl _
  · intro key v ms first rest m n r h
    rw [members] at h
    obtain ⟨one, h, h'⟩ := Option.bind_eq_some_iff.mp h
    exact (first h).le.trans (rest h')

/-- A node without children. -/
lemma measures_leaf {label : JsonLabel} (h : m.enter label.name.length = some m')
    (unrecorded : label.recorded 0 = none) : Measures m m' [(label, 0)] where
  nodes := by rw [of_enter h, List.length_singleton]
  names := by
    rw [of_enter h, List.map_singleton, List.sum_singleton]
    rfl
  counts := by
    rw [of_enter h, countsOf_of_none unrecorded]
    exact (List.append_nil _).symm

/-- A container, once its children are measured. -/
lemma measures_container {label : JsonLabel} {ty : Word} {l : List (JsonLabel × Nat)}
    (kind : label.kind = .container ty) (h : m.enter label.name.length = some m')
    (children : Measures m'.openSlot r.1 l) :
    Measures m (r.1.close m'.counts.length r.2) ((label, r.2) :: l) where
  nodes := by
    have nodes := children.nodes
    rw [of_enter h] at nodes
    change r.1.nodes = _
    rw [nodes, List.length_cons]
    change m.nodes + 1 + _ = _
    omega
  names := by
    have names := children.names
    rw [of_enter h] at names
    change r.1.names = _
    rw [names, List.map_cons, List.sum_cons]
    change m.names + nameBytes label.name.length + _ = _
    rw [Nat.add_assoc]
    rfl
  counts := by
    have counts := children.counts
    have one : label.recorded r.2 = some r.2 := by rw [JsonLabel.recorded, kind]
    change r.1.counts.set _ _ = _
    rw [counts, countsOf_of_some one, of_enter h]
    change ((m.counts ++ [0]) ++ _).set m.counts.length _ = _
    rw [List.append_assoc, List.set_append_right _ _ (Nat.le_refl _), Nat.sub_self]
    rfl

/-- One more, below the maximum. -/
lemma saturatingAdd_one {n : Nat} (lt : n < u32Max) : saturatingAdd n 1 = n + 1 :=
  Nat.min_eq_left lt

/-- The first pass measures the tree of the document. -/
lemma measures_node :
    (∀ doc, ∀ {m m' : Measure} {text : List Byte}, m.node text.length doc = some m' →
      m'.nodes ≤ u32Max → Measures m m' (doc.tree text).preorder) ∧
    (∀ es, ∀ {m : Measure} {n r}, m.elements n es = some r → r.1.nodes ≤ u32Max →
      n ≤ m.nodes → Measures m r.1 (Rose.preorderAll (Json.elementTrees n es)) ∧
        r.2 = n + es.length) ∧
    ∀ ms, ∀ {m : Measure} {n r}, m.members n ms = some r → r.1.nodes ≤ u32Max →
      n ≤ m.nodes → Measures m r.1 (Rose.preorderAll (Json.memberTrees ms)) ∧
        r.2 = n + ms.length := by
  refine Json.induct ?_ ?_ ?_ ?_ ?_ ?_ ?_ ?_ ?_ ?_
  · intro m m' text h bound
    rw [node] at h
    rw [Json.tree]
    exact measures_leaf h rfl
  · intro v m m' text h bound
    rw [node] at h
    rw [Json.tree]
    exact measures_leaf h rfl
  · intro v m m' text h bound
    rw [node] at h
    rw [Json.tree]
    exact measures_leaf h rfl
  · intro v m m' text h bound
    rw [node] at h
    rw [Json.tree]
    exact measures_leaf h rfl
  · intro es ih m m' text h bound
    rw [node] at h
    obtain ⟨entered, first, h⟩ := Option.bind_eq_some_iff.mp h
    obtain ⟨r, inside, rfl⟩ := Option.map_eq_some_iff.mp h
    obtain ⟨children, count⟩ := ih inside bound (Nat.zero_le _)
    rw [Nat.zero_add] at count
    rw [Json.tree, Rose.preorder, Json.length_elementTrees, ← count]
    exact measures_container rfl first children
  · intro ms ih m m' text h bound
    rw [node] at h
    obtain ⟨entered, first, h⟩ := Option.bind_eq_some_iff.mp h
    obtain ⟨r, inside, rfl⟩ := Option.map_eq_some_iff.mp h
    obtain ⟨children, count⟩ := ih inside bound (Nat.zero_le _)
    rw [Nat.zero_add] at count
    rw [Json.tree, Rose.preorder, Json.length_memberTrees, ← count]
    exact measures_container rfl first children
  · intro m n r h bound le
    rw [elements] at h
    cases h
    exact ⟨Measures.refl m, rfl⟩
  · intro e es first rest m n r h bound le
    rw [elements, ← length_decimal] at h
    obtain ⟨one, h, h'⟩ := Option.bind_eq_some_iff.mp h
    have more := nodes_mono.1 e h
    have most := nodes_mono.2.1 es h'
    rw [saturatingAdd_one (by omega)] at h'
    obtain ⟨later, count⟩ := rest h' bound (by omega)
    rw [Json.elementTrees, Rose.preorderAll, List.length_cons]
    exact ⟨(first h (by omega)).trans later, by omega⟩
  · intro m n r h bound le
    rw [members] at h
    cases h
    exact ⟨Measures.refl m, rfl⟩
  · intro key v ms first rest m n r h bound le
    rw [members, ← length_qcText] at h
    obtain ⟨one, h, h'⟩ := Option.bind_eq_some_iff.mp h
    have more := nodes_mono.1 v h
    have most := nodes_mono.2.2 ms h'
    rw [saturatingAdd_one (by omega)] at h'
    obtain ⟨later, count⟩ := rest h' bound (by omega)
    rw [Json.memberTrees, Rose.preorderAll, List.length_cons]
    exact ⟨(first h (by omega)).trans later, by omega⟩

end Measure

end Qcvm.Stdlib

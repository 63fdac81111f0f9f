import Qcvm.Stdlib.JsonLayout
import Qcvm.Vm.StringTable

/-!
# Writing a document

The second pass takes one place of the tree after the other (`Writer.run`), in the same order as the
first pass, and so finds the child counts where it looks for them (`value_run`). Writing a place
changes the node in its slot and the next bytes of the names area, and nothing else; so after the
pass every place is stored as it was written (`stored_run`).
-/

namespace Qcvm.Stdlib

open Lib

namespace Writer

/-- The pass at one place: it names the node and writes it. -/
def entry (w : Writer) (p : Place JsonLabel) : Bool × Writer :=
  let named := w.name p.label.name
  match p.label.kind with
  | .leaf ty a b => (true, named.2.node p.slot ty named.1 (words a b))
  | .text s => named.2.string p.slot named.1 s
  | .container ty => (true, named.2.children.2.container p.slot ty named.1 p.first p.count)

/-- The pass at one place after the other. -/
def run : List (Place JsonLabel) → Writer → Bool × Writer
  | [], w => (true, w)
  | p :: ps, w => if (w.entry p).1 then run ps (w.entry p).2 else w.entry p

variable {w w' : Writer} {p : Place JsonLabel} {ps qs : List (Place JsonLabel)} {rest : List Nat}

/-- Entries in sequence are written in sequence, up to the first that fails. -/
lemma run_append : run (ps ++ qs) w =
    if (run ps w).1 then run qs (run ps w).2 else run ps w := by
  induction ps generalizing w with
  | nil => rfl
  | cons p ps ih =>
    rw [List.cons_append, run, run]
    cases ok : (w.entry p).1 with
    | true =>
      rw [if_pos rfl, if_pos rfl]
      exact ih
    | false => rw [if_neg Bool.false_ne_true, if_neg Bool.false_ne_true, ok,
        if_neg Bool.false_ne_true]

/-- A single entry is written. -/
lemma run_singleton : run [p] w = w.entry p := by
  rw [run]
  cases ok : (w.entry p).1 with
  | true =>
    rw [if_pos rfl, run, ← ok]
  | false => rw [if_neg Bool.false_ne_true]

/-! ## The order of the pass -/

/-- Writing bytes keeps the counts that are left. -/
@[simp] lemma counts_put (pos : Nat) (bytes : List Byte) : (w.put pos bytes).counts = w.counts := by
  rw [put]
  split <;> rfl

/-- Writing bytes takes no node. -/
@[simp] lemma nextNode_put (pos : Nat) (bytes : List Byte) :
    (w.put pos bytes).nextNode = w.nextNode := by
  rw [put]
  split <;> rfl

/-- Writing a name keeps the counts that are left. -/
@[simp] lemma counts_name (name : List Byte) : (w.name name).2.counts = w.counts := by
  rw [Writer.name]
  split
  · rfl
  · exact counts_put _ _

/-- Writing a name takes no node. -/
@[simp] lemma nextNode_name (name : List Byte) : (w.name name).2.nextNode = w.nextNode := by
  rw [Writer.name]
  split
  · rfl
  · exact nextNode_put _ _

/-- Writing a node keeps the counts that are left. -/
@[simp] lemma counts_node (slot : Nat) (ty name : Word) (value : List Byte) :
    (w.node slot ty name value).counts = w.counts := by
  rw [node, counts_put, counts_put, counts_put]

/-- Writing a node takes no further node. -/
@[simp] lemma nextNode_node (slot : Nat) (ty name : Word) (value : List Byte) :
    (w.node slot ty name value).nextNode = w.nextNode := by
  rw [node, nextNode_put, nextNode_put, nextNode_put]

/-- Writing a string keeps the counts and takes no node. -/
lemma order_string (slot : Nat) (name : Word) (s : List Byte) :
    (w.string slot name s).2.counts = w.counts ∧
      (w.string slot name s).2.nextNode = w.nextNode := by
  rw [string]
  split
  · exact ⟨counts_node _ _ _ _, nextNode_node _ _ _ _⟩
  · exact ⟨rfl, rfl⟩

/-- A run takes the counts of its places and the slots of their children. -/
def Takes (w : Writer) (r : Bool × Writer) (n : Nat) (rest : List Nat) : Prop :=
  r.1 = true → r.2.counts = rest ∧ r.2.nextNode = w.nextNode + n

/-- A leaf takes no counts and no nodes. -/
lemma takes_leaf {label : JsonLabel} {ty a b : Word} {slot next : Nat}
    (kind : label.kind = .leaf ty a b) (counts : w.counts = rest) :
    w.Takes (w.entry ⟨label, slot, next, 0⟩) 0 rest := by
  intro _
  rw [entry, kind]
  dsimp only
  rw [counts_node, nextNode_node, counts_name, nextNode_name]
  exact ⟨counts, rfl⟩

/-- A text takes no counts and no nodes. -/
lemma takes_text {label : JsonLabel} {s : List Byte} {slot next : Nat}
    (kind : label.kind = .text s) (counts : w.counts = rest) :
    w.Takes (w.entry ⟨label, slot, next, 0⟩) 0 rest := by
  intro _
  have order := @order_string (w.name label.name).2 slot (w.name label.name).1 s
  rw [counts_name, nextNode_name] at order
  rw [entry, kind]
  exact ⟨order.1.trans counts, order.2⟩

/-- The pass at a container, whose count is the next one. -/
lemma entry_container {label : JsonLabel} {ty : Word} {n : Nat} (slot : Nat)
    (kind : label.kind = .container ty) (counts : w.counts = n :: rest) :
    (w.name label.name).2.children.1 = n ∧
    ∃ w', w.entry ⟨label, slot, w.nextNode, n⟩ = (true, w') ∧
      w' = (w.name label.name).2.children.2.container slot ty (w.name label.name).1 w.nextNode n ∧
      w'.counts = rest ∧ w'.nextNode = w.nextNode + n := by
  have named : (w.name label.name).2.counts = n :: rest := (counts_name _).trans counts
  have head : (w.name label.name).2.children.1 = n := by
    rw [children, named]
    rfl
  refine ⟨head, _, ?_, rfl, ?_, ?_⟩
  · rw [entry, kind]
  · rw [container, counts_node]
    change (w.name label.name).2.counts.tail = rest
    rw [named]
    rfl
  · rw [container, nextNode_node]
    change (w.name label.name).2.nextNode + (w.name label.name).2.children.1 = _
    rw [head, nextNode_name]

/-- The loop over the children is the run over the first and then that over the others. -/
lemma loop_run {n n' : Nat} {rest rest' : List Nat} (loop : Writer → Bool × Writer)
    (qs : Nat → List (Place JsonLabel)) (first : w.Takes (run ps w) n rest)
    (others : ∀ w', w'.counts = rest → loop w' = run (qs w'.nextNode) w' ∧
      w'.Takes (run (qs w'.nextNode) w') n' rest') :
    (if (run ps w).1 then loop (run ps w).2 else run ps w) =
        run (ps ++ qs (w.nextNode + n)) w ∧
      w.Takes (run (ps ++ qs (w.nextNode + n)) w) (n + n') rest' := by
  rw [run_append]
  cases ok : (run ps w).1 with
  | false =>
    rw [if_neg Bool.false_ne_true, if_neg Bool.false_ne_true]
    refine ⟨rfl, ?_⟩
    intro contra
    rw [ok] at contra
    cases contra
  | true =>
    obtain ⟨counts, next⟩ := first ok
    obtain ⟨loops, takes⟩ := others _ counts
    rw [next] at loops takes
    rw [if_pos rfl, if_pos rfl]
    refine ⟨loops, ?_⟩
    intro done
    obtain ⟨left, last⟩ := takes done
    rw [next, Nat.add_assoc] at last
    exact ⟨left, last⟩

/-- The pass over a container is the run over its place and those below it. -/
lemma container_run (label : JsonLabel) {ty : Word} {slot n deep : Nat} {counts : List Nat}
    (loop : Writer → Nat → Nat → Bool × Writer) (ps : Nat → List (Place JsonLabel))
    (kind : label.kind = .container ty) (recorded : w.counts = n :: counts)
    (children : ∀ w', w'.counts = counts → loop w' w.nextNode n = run (ps w'.nextNode) w' ∧
      w'.Takes (run (ps w'.nextNode) w') deep rest) :
    loop ((w.name label.name).2.children.2.container slot ty (w.name label.name).1
        (w.name label.name).2.nextNode (w.name label.name).2.children.1)
      (w.name label.name).2.nextNode (w.name label.name).2.children.1 =
        run (⟨label, slot, w.nextNode, n⟩ :: ps (w.nextNode + n)) w ∧
      w.Takes (run (⟨label, slot, w.nextNode, n⟩ :: ps (w.nextNode + n)) w) (n + deep) rest := by
  obtain ⟨head, w', entered, same, counts', next⟩ := entry_container slot kind recorded
  obtain ⟨loops, takes⟩ := children w' counts'
  rw [head, nextNode_name, ← same, run, entered, if_pos rfl]
  rw [next] at loops takes
  refine ⟨loops, ?_⟩
  intro ok
  obtain ⟨left, last⟩ := takes ok
  rw [next, Nat.add_assoc] at last
  exact ⟨left, last⟩

/-- The pass over a document is the run over the places of its tree. -/
lemma value_run :
    (∀ doc : Json, ∀ {w : Writer} {text slot rest},
      w.counts = countsOf (doc.tree text).preorder ++ rest →
      (w.name text).2.value slot (w.name text).1 doc =
        run ((doc.tree text).places slot w.nextNode) w ∧
      w.Takes (run ((doc.tree text).places slot w.nextNode) w) (doc.tree text).beneath rest) ∧
    (∀ es : List Json, ∀ {w : Writer} {first k rest},
      w.counts = countsOf (Rose.preorderAll (Json.elementTrees k es)) ++ rest →
      w.elements first k (k + es.length) es =
        run (Rose.placesAll (first + k) w.nextNode (Json.elementTrees k es)) w ∧
      w.Takes (run (Rose.placesAll (first + k) w.nextNode (Json.elementTrees k es)) w)
        (Rose.beneathAll (Json.elementTrees k es)) rest) ∧
    ∀ ms : List (List Byte × Json), ∀ {w : Writer} {first k rest},
      w.counts = countsOf (Rose.preorderAll (Json.memberTrees ms)) ++ rest →
      w.members first k (k + ms.length) ms =
        run (Rose.placesAll (first + k) w.nextNode (Json.memberTrees ms)) w ∧
      w.Takes (run (Rose.placesAll (first + k) w.nextNode (Json.memberTrees ms)) w)
        (Rose.beneathAll (Json.memberTrees ms)) rest := by
  refine Json.induct ?_ ?_ ?_ ?_ ?_ ?_ ?_ ?_ ?_ ?_
  · intro w text slot rest counts
    rw [Json.tree, Rose.places, Rose.placesAll, run_singleton, value]
    exact ⟨rfl, takes_leaf rfl counts⟩
  · intro v w text slot rest counts
    rw [Json.tree, Rose.places, Rose.placesAll, run_singleton, value]
    exact ⟨rfl, takes_leaf rfl counts⟩
  · intro v w text slot rest counts
    rw [Json.tree, Rose.places, Rose.placesAll, run_singleton, value]
    exact ⟨rfl, takes_leaf rfl counts⟩
  · intro v w text slot rest counts
    rw [Json.tree, Rose.places, Rose.placesAll, run_singleton, value]
    exact ⟨rfl, takes_text rfl counts⟩
  · intro es ih w text slot rest counts
    rw [Json.tree, Rose.preorder, countsOf_of_some rfl, Json.length_elementTrees] at counts
    rw [Json.tree, Rose.places, Rose.beneath, Json.length_elementTrees, value]
    -- The children take the slots from the next free one on, which the node reserves.
    refine container_run ⟨text, .container typeArray⟩ (fun w' first n => w'.elements first 0 n es)
      (fun next => Rose.placesAll w.nextNode next (Json.elementTrees 0 es)) rfl counts ?_
    intro w' counts'
    have children := @ih w' w.nextNode 0 rest counts'
    rw [Nat.zero_add] at children
    exact children
  · intro ms ih w text slot rest counts
    rw [Json.tree, Rose.preorder, countsOf_of_some rfl, Json.length_memberTrees] at counts
    rw [Json.tree, Rose.places, Rose.beneath, Json.length_memberTrees, value]
    refine container_run ⟨text, .container typeObject⟩ (fun w' first n => w'.members first 0 n ms)
      (fun next => Rose.placesAll w.nextNode next (Json.memberTrees ms)) rfl counts ?_
    intro w' counts'
    have children := @ih w' w.nextNode 0 rest counts'
    rw [Nat.zero_add] at children
    exact children
  · intro w first k rest counts
    rw [elements, List.length_nil, Nat.add_zero, if_neg (Nat.lt_irrefl k)]
    exact ⟨rfl, fun _ => ⟨counts, rfl⟩⟩
  · intro e es ihe ihes w first k rest counts
    rw [Json.elementTrees, Rose.preorderAll, countsOf_append, List.append_assoc] at counts
    obtain ⟨same, takes⟩ := @ihe w (decimal k) (first + k) _ counts
    rw [Json.elementTrees, Rose.placesAll, Rose.beneathAll, elements, same, List.length_cons,
      if_pos (by omega)]
    -- One element, and then the loop over the others with what it left of the counts.
    refine loop_run (fun w' => w'.elements first (k + 1) (k + (es.length + 1)) es)
      (fun next => Rose.placesAll (first + k + 1) next (Json.elementTrees (k + 1) es))
      takes ?_
    intro w' counts'
    have others := @ihes w' first (k + 1) rest counts'
    rw [Nat.add_assoc k, Nat.add_comm 1] at others
    exact others
  · intro w first k rest counts
    rw [members, List.length_nil, Nat.add_zero, if_neg (Nat.lt_irrefl k)]
    exact ⟨rfl, fun _ => ⟨counts, rfl⟩⟩
  · intro key v ms ihv ihms w first k rest counts
    rw [Json.memberTrees, Rose.preorderAll, countsOf_append, List.append_assoc] at counts
    obtain ⟨same, takes⟩ := @ihv w (qcText key) (first + k) _ counts
    rw [Json.memberTrees, Rose.placesAll, Rose.beneathAll, members, same, List.length_cons,
      if_pos (by omega)]
    refine loop_run (fun w' => w'.members first (k + 1) (k + (ms.length + 1)) ms)
      (fun next => Rose.placesAll (first + k + 1) next (Json.memberTrees ms)) takes ?_
    intro w' counts'
    have others := @ihms w' first (k + 1) rest counts'
    rw [Nat.add_assoc k, Nat.add_comm 1] at others
    exact others

/-! ## What is written -/

/-- The address of an offset in the block. -/
def addrOf (base offset : Nat) : Word := BitVec.ofNat 32 ((checkedAdd base offset).getD 0)

/-- The name of a node in the names area, with its NUL. -/
def nameText (name : List Byte) : List Byte := if name = [] then [] else name ++ [0]

/-- The name of a node as it is referred to: null, or where it is stored. -/
def nameRef (base offset : Nat) (name : List Byte) : Word :=
  if name = [] then 0 else addrOf base offset

/-- The 16 bytes of a node. -/
def nodeBytes (v : NodeView) : List Byte := leBytes v.ty ++ (leBytes v.name ++ words v.a v.b)

/-- The type and value words of a node in which this is stored. -/
inductive Holds (strings : Strings) (base first count : Nat) : JsonKind → Word → Word → Word → Prop
  | leaf {ty a b : Word} : Holds strings base first count (.leaf ty a b) ty a b
  | text {s : List Byte} {slot : Nat} {data : Arr Byte} : slot < 2 ^ 30 →
      strings.tempRaw slot = some data → untilNul data = qcText s →
      Holds strings base first count (.text s) typeString (tempHandle slot) 0
  | container {ty : Word} : Holds strings base first count (.container ty) ty
      (addrOf base (first * nodeSize)) (BitVec.ofNat 32 count)

/-- The node of a place and its name, at `offset`, are in the block. -/
structure StoredAt (w : Writer) (offset : Nat) (p : Place JsonLabel) : Prop where
  node : ∃ v : NodeView, w.out.slice (p.slot * nodeSize) nodeSize = nodeBytes v ∧
    v.name = nameRef w.base offset p.label.name ∧
    Holds w.strings w.base p.first p.count p.label.kind v.ty v.a v.b
  name : w.out.slice offset p.label.width = nameText p.label.name

/-- The places are in the block, their names one after the other. -/
def Stored (w : Writer) : Nat → List (Place JsonLabel) → Prop
  | _, [] => True
  | offset, p :: ps => w.StoredAt offset p ∧ Stored w (offset + p.label.width) ps

/-- The bytes that the names of these places take. -/
def namesOf (ps : List (Place JsonLabel)) : Nat := (ps.map fun p => p.label.width).sum

/-- There is room for the places, and nothing is where their names go. -/
structure Room (w : Writer) (ps : List (Place JsonLabel)) : Prop where
  slots : ∀ p ∈ ps, (p.slot + 1) * nodeSize ≤ w.nextName
  names : w.nextName + namesOf ps ≤ w.out.size
  distinct : (ps.map Place.slot).Nodup
  clear : ∀ i, w.nextName ≤ i → w.out.get i = 0
  strings : w.strings.Exact

/-- What a pass over the places changes. -/
structure Wrote (w w' : Writer) (ps : List (Place JsonLabel)) : Prop where
  nextName : w'.nextName = w.nextName + namesOf ps
  base : w'.base = w.base
  size : w'.out.size = w.out.size
  dropped : w'.dropped = w.dropped
  strings : w'.strings.Exact
  live : ∀ slot data, w.strings.tempRaw slot = some data → w'.strings.tempRaw slot = some data
  same : ∀ i, (∀ p ∈ ps, i < p.slot * nodeSize ∨ (p.slot + 1) * nodeSize ≤ i) →
    i < w.nextName ∨ w.nextName + namesOf ps ≤ i → w'.out.get i = w.out.get i

/-- A node's bytes. -/
lemma length_nodeBytes (v : NodeView) : (nodeBytes v).length = nodeSize := rfl

/-- The bytes of a name are those that were measured. -/
lemma length_nameText (name : List Byte) : (nameText name).length = nameBytes name.length := by
  rw [nameText, nameBytes]
  cases name with
  | nil => rfl
  | cons c name =>
    rw [if_neg (List.cons_ne_nil _ _), if_neg (by simp), List.length_append]
    rfl

/-- Bytes that fit are written. -/
lemma put_eq {pos : Nat} {bytes : List Byte} (fits : pos + bytes.length ≤ w.out.size) :
    w.put pos bytes = { w with out := w.out.write pos bytes } := if_pos fits

/-- A node that fits is written at once. -/
lemma node_eq {slot : Nat} (v : NodeView) (fits : (slot + 1) * nodeSize ≤ w.out.size) :
    w.node slot v.ty v.name (words v.a v.b) =
      { w with out := w.out.write (slot * nodeSize) (nodeBytes v) } := by
  rw [Nat.succ_mul, nodeSize] at fits
  have ty : (leBytes v.ty).length = 4 := length_leBytes _
  have name : (leBytes v.name).length = 4 := length_leBytes _
  have value : (words v.a v.b).length = 8 := rfl
  have first : w.put (slot * 16) (leBytes v.ty) =
      { w with out := w.out.write (slot * 16) (leBytes v.ty) } := put_eq (by omega)
  have second : (w.put (slot * 16) (leBytes v.ty)).put (slot * 16 + 4) (leBytes v.name) =
      { w with
        out := (w.out.write (slot * 16) (leBytes v.ty)).write (slot * 16 + 4) (leBytes v.name) } := by
    rw [first]
    exact put_eq (by dsimp only; rw [Arr.size_write]; omega)
  have parts : w.out.write (slot * 16) (nodeBytes v) =
      ((w.out.write (slot * 16) (leBytes v.ty)).write (slot * 16 + 4) (leBytes v.name)).write
        (slot * 16 + 8) (words v.a v.b) := by
    rw [nodeBytes, Arr.write_append (by rw [List.length_append]; omega),
      Arr.write_append (by rw [Arr.size_write]; omega), ty, name, Nat.add_assoc]
  rw [node, nodeSize, second, parts]
  exact put_eq (by dsimp only; rw [Arr.size_write, Arr.size_write]; omega)

/-- Writing what is there changes nothing. -/
lemma write_same {a : Arr Byte} {pos : Nat} {bytes : List Byte}
    (same : ∀ i, i < bytes.length → a.get (pos + i) = bytes.getD i 0) : a.write pos bytes = a := by
  refine Arr.ext rfl fun i _ => ?_
  rw [Arr.get_write]
  split_ifs with inside
  · have there := same (i - pos) (by omega)
    rw [Nat.add_sub_cancel' inside.2.1] at there
    exact there.symm
  · rfl

/-- A name that fits is written at once, with the NUL that is there. -/
lemma name_eq {name : List Byte} (fits : w.nextName + nameBytes name.length ≤ w.out.size)
    (clear : ∀ i, w.nextName ≤ i → w.out.get i = 0) :
    w.name name = (nameRef w.base w.nextName name,
      { w with
        out := w.out.write w.nextName (nameText name)
        nextName := w.nextName + nameBytes name.length }) := by
  rw [Writer.name, nameRef, nameText]
  cases name with
  | nil =>
    have same : w.out.write w.nextName [] = w.out := write_same nofun
    rw [if_pos rfl, if_pos rfl, if_pos rfl, same]
    rfl
  | cons c name =>
    have bytes : nameBytes (c :: name).length = (c :: name).length + 1 := if_neg (by simp)
    rw [bytes] at fits ⊢
    have text : w.out.write w.nextName (c :: name ++ [0]) = w.out.write w.nextName (c :: name) := by
      rw [Arr.write_append (by rw [List.length_singleton]; omega)]
      apply write_same
      intro i lt
      rw [List.length_singleton, Nat.lt_one_iff] at lt
      subst lt
      rw [Arr.get_write_of_outside (by omega), clear _ (by omega)]
      rfl
    rw [if_neg (List.cons_ne_nil _ _), if_neg (List.cons_ne_nil _ _),
      if_neg (List.cons_ne_nil _ _), text, put_eq (by omega)]
    rfl

/-- A text before a NUL is read back. -/
lemma cstrAt_eq {a : Arr Byte} {text : List Byte} {off : Nat} (clean : 0 ∉ text)
    (fits : off + text.length < a.size)
    (bytes : ∀ i, i < text.length → a.get (off + i) = text.getD i 0)
    (nul : a.get (off + text.length) = 0) : cstrAt a off = text := by
  have go : ∀ (text : List Byte) (off n : Nat), 0 ∉ text → text.length < n →
      (∀ i, i < text.length → a.get (off + i) = text.getD i 0) →
      a.get (off + text.length) = 0 → Arr.takeUntil.go (· == 0) a n off = text := by
    intro text
    induction text with
    | nil =>
      intro off n _ lt _ nul
      cases n with
      | zero => cases lt
      | succ n =>
        rw [List.length_nil, Nat.add_zero] at nul
        rw [Arr.takeUntil.go, nul]
        rfl
    | cons c text ih =>
      intro off n clean lt bytes nul
      rw [List.mem_cons, not_or] at clean
      cases n with
      | zero => cases lt
      | succ n =>
        have first : a.get off = c := bytes 0 (Nat.succ_pos _)
        have other : ¬(c == 0) = true := fun zero => clean.1 (beq_iff_eq.mp zero).symm
        rw [Arr.takeUntil.go, first, if_neg other]
        refine congrArg (c :: ·) (ih (off + 1) n clean.2 (Nat.lt_of_succ_lt_succ lt) ?_ ?_)
        · intro i inside
          have byte := bytes (i + 1) (Nat.succ_lt_succ inside)
          rw [Nat.add_right_comm, ← Nat.add_assoc] at *
          exact byte
        · rw [List.length_cons, ← Nat.add_assoc, Nat.add_right_comm] at nul
          exact nul
  exact go text off _ clean (by omega) bytes nul

/-- A text that becomes a temp string is that string, and those that were live still are. -/
lemma alloc_stored {strings strings' : Strings} {s : List Byte} {r : Word} (exact_ : strings.Exact)
    (h : strings.alloc (qcText s) = (.ok r, strings')) : strings'.Exact ∧
      (∀ slot data, strings.tempRaw slot = some data → strings'.tempRaw slot = some data) ∧
      ∃ slot data, r = tempHandle slot ∧ slot < 2 ^ 30 ∧ strings'.tempRaw slot = some data ∧
        untilNul data = qcText s := by
  rcases strings.alloc_eq (qcText s) with eq | ⟨-, eq⟩
  · rw [eq] at h
    obtain ⟨exact', ⟨slot, handle, empty, stored⟩, -⟩ := exact_.allocRaw_ok h
    have here := (stored slot).trans (if_pos rfl)
    refine ⟨exact', ?_, slot, _, handle, exact'.slot_lt here, here, ?_⟩
    · intro other data live
      have ne : other ≠ slot := by
        rintro rfl
        rw [empty] at live
        cases live
      rw [stored, if_neg ne, live]
    · have padded : (qcText s).length < Strings.paddedSize (qcText s).length := by
        rw [Strings.paddedSize]
        omega
      refine cstrAt_eq (zero_notMem_qcText s) (by rw [Arr.size_resize]; omega) ?_ ?_
      · intro i lt
        rw [Nat.zero_add, Arr.get_resize_of_lt _ (by omega) (by rw [Arr.size_ofList]; exact lt)]
        exact Arr.get_tabulate _ lt
      · rw [Nat.zero_add, Arr.resize, Arr.get_tabulate _ padded,
          if_neg (by rw [Arr.size_ofList]; omega)]
  · rw [eq] at h
    cases h

/-- The pass at a place writes its name and its node. -/
lemma entry_eq (room : w.Room (p :: ps)) (ok : (w.entry p).1 = true) :
    ∃ v strings counts nextNode, (w.entry p).2 =
        { w with
          strings := strings
          out := (w.out.write w.nextName (nameText p.label.name)).write (p.slot * nodeSize)
            (nodeBytes v)
          nextName := w.nextName + p.label.width
          nextNode := nextNode
          counts := counts } ∧
      v.name = nameRef w.base w.nextName p.label.name ∧
      Holds strings w.base p.first p.count p.label.kind v.ty v.a v.b ∧ strings.Exact ∧
      ∀ slot data, w.strings.tempRaw slot = some data → strings.tempRaw slot = some data := by
  have names := room.names
  rw [namesOf, List.map_cons, List.sum_cons] at names
  have slot := room.slots p List.mem_cons_self
  have named : w.name p.label.name = (nameRef w.base w.nextName p.label.name,
      { w with
        out := w.out.write w.nextName (nameText p.label.name)
        nextName := w.nextName + p.label.width }) := by
    refine name_eq ?_ room.clear
    rw [← JsonLabel.width]
    omega
  have fits (text : List Byte) :
      (p.slot + 1) * nodeSize ≤ (w.out.write w.nextName text).size := by
    rw [Arr.size_write]
    omega
  rw [entry, named] at ok ⊢
  cases kind : p.label.kind with
  | leaf ty a b =>
    rw [kind] at ok
    refine ⟨⟨ty, nameRef w.base w.nextName p.label.name, a, b⟩, w.strings, w.counts, w.nextNode,
      ?_, rfl, .leaf, room.strings, fun _ _ live => live⟩
    exact node_eq ⟨ty, nameRef w.base w.nextName p.label.name, a, b⟩ (fits _)
  | text s =>
    rw [kind] at ok
    dsimp only [string] at ok ⊢
    cases alloc : w.strings.alloc (qcText s) with
    | mk result strings =>
      rw [alloc] at ok
      cases result with
      | error e => cases ok
      | ok r =>
        obtain ⟨exact', live, slot, data, rfl, small, stored, text⟩ :=
          alloc_stored room.strings alloc
        refine ⟨⟨typeString, nameRef w.base w.nextName p.label.name, tempHandle slot, 0⟩, strings,
          w.counts, w.nextNode, ?_, rfl, .text small stored text, exact', live⟩
        exact node_eq ⟨typeString, nameRef w.base w.nextName p.label.name, tempHandle slot, 0⟩
          (fits _)
  | container ty =>
    rw [kind] at ok
    refine ⟨⟨ty, nameRef w.base w.nextName p.label.name, addrOf w.base (p.first * nodeSize),
      BitVec.ofNat 32 p.count⟩, w.strings, w.counts.tail, w.nextNode + w.counts.headD 0,
      ?_, rfl, .container, room.strings, fun _ _ live => live⟩
    exact node_eq ⟨ty, nameRef w.base w.nextName p.label.name, addrOf w.base (p.first * nodeSize),
      BitVec.ofNat 32 p.count⟩ (fits _)

/-- Nothing was written. -/
lemma Wrote.refl (exact_ : w.strings.Exact) : w.Wrote w [] where
  nextName := rfl
  base := rfl
  size := rfl
  dropped := rfl
  strings := exact_
  live _ _ h := h
  same _ _ _ := rfl

/-- What was written in sequence was written. -/
lemma Wrote.trans {w'' : Writer} (h : w.Wrote w' ps) (h' : w'.Wrote w'' qs) :
    w.Wrote w'' (ps ++ qs) where
  nextName := by
    rw [h'.nextName, h.nextName, namesOf, namesOf, namesOf, List.map_append,
      List.sum_append_nat, Nat.add_assoc]
  base := h'.base.trans h.base
  size := h'.size.trans h.size
  dropped := h'.dropped.trans h.dropped
  strings := h'.strings
  live slot data live := h'.live slot data (h.live slot data live)
  same := by
    intro i outside apart
    have next := h.nextName
    rw [namesOf, List.map_append, List.sum_append_nat] at apart
    rw [h'.same i (fun p mem => outside p (List.mem_append_right ps mem)),
      h.same i (fun p mem => outside p (List.mem_append_left qs mem))]
    · rw [namesOf]
      omega
    · rw [next, namesOf, namesOf]
      omega

/-- Writing a place stores it. -/
lemma entry_stored (room : w.Room (p :: ps)) (ok : (w.entry p).1 = true) :
    w.Wrote (w.entry p).2 [p] ∧ (w.entry p).2.StoredAt w.nextName p := by
  obtain ⟨v, strings, counts, nextNode, eq, name, holds, exact', live⟩ := entry_eq room ok
  have names := room.names
  have slot := room.slots p List.mem_cons_self
  have text : (nameText p.label.name).length = p.label.width := length_nameText _
  have node : (nodeBytes v).length = nodeSize := length_nodeBytes v
  have succ := Nat.succ_mul p.slot nodeSize
  rw [Nat.succ_eq_add_one] at succ
  rw [namesOf, List.map_cons, List.sum_cons] at names
  rw [eq]
  refine ⟨⟨?_, rfl, ?_, rfl, exact', live, ?_⟩, ⟨⟨v, ?_, name, holds⟩, ?_⟩⟩
  · rw [namesOf, List.map_singleton, List.sum_singleton]
  · dsimp only
    rw [Arr.size_write, Arr.size_write]
  · intro i outside apart
    have here := outside p List.mem_cons_self
    rw [namesOf, List.map_singleton, List.sum_singleton] at apart
    dsimp only
    rw [Arr.get_write_of_outside (by omega), Arr.get_write_of_outside (by omega)]
  · dsimp only
    have read : ((w.out.write w.nextName (nameText p.label.name)).write (p.slot * nodeSize)
        (nodeBytes v)).slice (p.slot * nodeSize) (nodeBytes v).length = nodeBytes v :=
      Arr.slice_write (by rw [Arr.size_write]; omega)
    rw [node] at read
    exact read
  · dsimp only
    have read : (w.out.write w.nextName (nameText p.label.name)).slice w.nextName
        (nameText p.label.name).length = nameText p.label.name := Arr.slice_write (by omega)
    rw [text] at read
    refine Eq.trans (Arr.slice_congr ?_) read
    intro i low high
    exact Arr.get_write_of_outside (Or.inr (by omega))

/-- There is room for the other places. -/
lemma Room.others (room : w.Room (p :: ps)) (wrote : w.Wrote w' [p]) : w'.Room ps where
  slots := by
    intro q mem
    rw [wrote.nextName]
    exact (room.slots q (List.mem_cons_of_mem p mem)).trans (Nat.le_add_right _ _)
  names := by
    have names := room.names
    rw [namesOf, List.map_cons, List.sum_cons] at names
    rw [wrote.nextName, wrote.size, namesOf, List.map_singleton, List.sum_singleton, namesOf]
    omega
  distinct := (List.nodup_cons.mp room.distinct).2
  clear := by
    intro i le
    have slot := room.slots p List.mem_cons_self
    rw [wrote.nextName] at le
    rw [wrote.same i ?_ (Or.inr le), room.clear i (by omega)]
    intro q mem
    rw [List.mem_singleton] at mem
    subst mem
    omega
  strings := wrote.strings

/-- A node that holds a value does so while the temp strings live. -/
lemma Holds.mono {strings strings' : Strings} {base first count : Nat} {kind : JsonKind}
    {ty a b : Word} (h : Holds strings base first count kind ty a b)
    (live : ∀ slot data, strings.tempRaw slot = some data → strings'.tempRaw slot = some data) :
    Holds strings' base first count kind ty a b := by
  cases h with
  | leaf => exact .leaf
  | text small stored text => exact .text small (live _ _ stored) text
  | container => exact .container

/-- A place stays stored when others are written. -/
lemma StoredAt.keep {offset : Nat} (h : w.StoredAt offset p) (wrote : w.Wrote w' ps)
    (slot : (p.slot + 1) * nodeSize ≤ offset) (before : offset + p.label.width ≤ w.nextName)
    (slots : ∀ q ∈ ps, (q.slot + 1) * nodeSize ≤ offset)
    (other : p.slot ∉ ps.map Place.slot) : w'.StoredAt offset p := by
  have kept : ∀ i, p.slot * nodeSize ≤ i → i < p.slot * nodeSize + nodeSize →
      w'.out.get i = w.out.get i := by
    intro i low high
    rw [Nat.succ_mul] at slot
    refine wrote.same i ?_ (Or.inl (by omega))
    intro q mem
    have ne : q.slot ≠ p.slot := fun same => other (same ▸ List.mem_map_of_mem mem)
    rcases Nat.lt_or_gt_of_ne ne with less | more
    · have le : (q.slot + 1) * nodeSize ≤ p.slot * nodeSize := Nat.mul_le_mul_right nodeSize less
      exact Or.inr (le.trans low)
    · have le : (p.slot + 1) * nodeSize ≤ q.slot * nodeSize := Nat.mul_le_mul_right nodeSize more
      rw [Nat.succ_mul] at le
      exact Or.inl (high.trans_le le)
  obtain ⟨⟨v, bytes, name, holds⟩, text⟩ := h
  refine ⟨⟨v, ?_, ?_, ?_⟩, ?_⟩
  · rw [← bytes]
    exact Arr.slice_congr kept
  · rw [wrote.base]
    exact name
  · rw [wrote.base]
    exact holds.mono wrote.live
  · rw [← text]
    apply Arr.slice_congr
    intro i low high
    refine wrote.same i ?_ (Or.inl (by omega))
    intro q mem
    exact Or.inr ((slots q mem).trans low)

/-- After a pass over places every one of them is stored. -/
lemma run_stored (room : w.Room ps) (ok : (run ps w).1 = true) :
    w.Wrote (run ps w).2 ps ∧ (run ps w).2.Stored w.nextName ps := by
  induction ps generalizing w with
  | nil => exact ⟨Wrote.refl room.strings, trivial⟩
  | cons p ps ih =>
    rw [run] at ok ⊢
    cases first : (w.entry p).1 with
    | false =>
      rw [first, if_neg Bool.false_ne_true, first] at ok
      cases ok
    | true =>
      rw [if_pos first] at ok
      rw [if_pos rfl]
      obtain ⟨wrote, here⟩ := entry_stored room first
      obtain ⟨others, stored⟩ := ih (room.others wrote) ok
      have next : (w.entry p).2.nextName = w.nextName + p.label.width := by
        rw [wrote.nextName, namesOf, List.map_singleton, List.sum_singleton]
      refine ⟨wrote.trans others, ?_, ?_⟩
      · refine here.keep others (room.slots p List.mem_cons_self) next.ge ?_
          (List.nodup_cons.mp room.distinct).1
        intro q mem
        exact room.slots q (List.mem_cons_of_mem p mem)
      · rw [← next]
        exact stored

/-! ## A pass that fails -/

/-- The pass fails at a place only for want of a temp string. -/
lemma failed_of_run (h : (run ps w).1 = false) : (run ps w).2.failed = true := by
  induction ps generalizing w with
  | nil => cases h
  | cons p ps ih =>
    rw [run] at h ⊢
    cases first : (w.entry p).1 with
    | true =>
      rw [if_pos first] at h
      rw [if_pos rfl]
      exact ih h
    | false =>
      rw [if_neg Bool.false_ne_true]
      rw [entry] at first ⊢
      cases kind : p.label.kind with
      | leaf ty a b =>
        rw [kind] at first
        cases first
      | container ty =>
        rw [kind] at first
        cases first
      | text s =>
        rw [kind] at first
        dsimp only [string] at first ⊢
        split at first
        · cases first
        · rfl

end Writer

end Qcvm.Stdlib

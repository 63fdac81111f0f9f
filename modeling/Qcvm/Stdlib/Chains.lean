import Qcvm.Interp.FastPath
import Qcvm.Vm.Layout

/-!
# Search chains

`findchain`, `findchainfloat` and `findchainflags` of `stdlib/entity.rs`. A search lists the matches in
ascending order and then links them through the chain field, each to the one before, so the chain
starts at the last match. Only the chain field of the matches is written (`Linked`), which is why the
links that are already there stay.
-/

namespace Qcvm.Stdlib

open Lib

/-- `field_word`: the word offset of a named field. -/
def fieldWord (core : Core) (name : String) : Option Nat := (core.fields.get (ascii name)).map (·.ofs)

/-- `field_ok`: whether words at a field offset lie within an entity's fields. -/
def fieldOk (core : Core) (f words : Nat) : Bool := (f + words) * 4 ≤ core.mem.fieldBytes

/-- `word`: field word `f` of entity `e`, 0 if either is invalid. -/
def entityWord (core : Core) (e f : Nat) : Word :=
  match core.mem.fieldOffset e f 1 with
  | some o => core.mem.entWord o
  | none => 0

/-- `set_word`. -/
def setEntityWord (core : Core) (e f : Nat) (v : Word) : Core :=
  match core.mem.fieldOffset e f 1 with
  | some o => { core with mem := core.mem.setEntWord o v }
  | none => core

/-- `live_after`: the entities in use after `start`. -/
def liveAfter (core : Core) (start : Nat) : List Nat :=
  let first := max (saturatingAdd start 1) 1
  (List.range' first (core.mem.numEdicts - first)).filter core.mem.inUse

/-- `live`. -/
def live (core : Core) : List Nat := liveAfter core 0

/-- `bad_field`. -/
def badField (name : String) : VmError := .new (.builtin (name ++ ": bad field reference"))

/-- `chain_field`: the field passed, else the progs' `.chain`. -/
def chainField (core : Core) (passed : Option Word) (name : String) : Except VmError Nat :=
  match (passed.map (·.toNat)).or (fieldWord core "chain") with
  | some f => if fieldOk core f 1 then .ok f else .error (badField name)
  | none => .error (badField name)

/-- One round of the loop of `build_chain`. -/
def linkOne (cf : Nat) (state : Core × Nat) (e : Nat) : Core × Nat :=
  (setEntityWord state.1 e cf (BitVec.ofNat 32 state.2), e)

/-- `build_chain`: links the matches and returns the head. -/
def buildChain (core : Core) (found : List Nat) (cf : Nat) : Core × Nat :=
  found.foldl (linkOne cf) (core, 0)

/-- What the searches do: `judge` is their test of an entity's field word. -/
def searchChain (name : String) (core : Core) (f : Word) (passed : Option Word) (judge : Word → Bool) :
    Except VmError (Core × Nat) := do
  let cf ← chainField core passed name
  if fieldOk core f.toNat 1 then
    .ok (buildChain core ((live core).filter fun e => judge (entityWord core e f.toNat)) cf)
  else .error (badField name)

/-- `findchain`: the string field is the text wanted; a null field never is. -/
def findchain (core : Core) (f : Word) (want : List Byte) (passed : Option Word) :
    Except VmError (Core × Nat) :=
  searchChain "findchain" core f passed fun t => t != 0 && (core.strBytes t).getD [] == want

/-- `findchainfloat`: the field equals the number wanted. -/
def findchainfloat (F : FloatOps) (core : Core) (f : Word) (want : Word) (passed : Option Word) :
    Except VmError (Core × Nat) :=
  searchChain "findchainfloat" core f passed fun t => F.eq t want

/-- `findchainflags`: the field shares a bit with the flags, both as integers. -/
def findchainflags (F : FloatOps) (core : Core) (f : Word) (flags : Word) (passed : Option Word) :
    Except VmError (Core × Nat) :=
  searchChain "findchainflags" core f passed fun t => F.f2i t &&& F.f2i flags != 0

/-! ## Following links -/

section Follows

variable {α : Type} {next next' : α → α} {stop a : α} {l : List α}

/-- Following `next` from an element visits the list and ends at `stop`. -/
inductive Follows (next : α → α) (stop : α) : α → List α → Prop where
  | nil : Follows next stop stop []
  | cons {a : α} {l : List α} : a ≠ stop → Follows next stop (next a) l → Follows next stop a (a :: l)

/-- A chain depends on its own links alone. -/
lemma Follows.congr (h : Follows next stop a l) (same : ∀ b ∈ l, next' b = next b) :
    Follows next' stop a l := by
  induction h with
  | nil => exact .nil
  | @cons a l ne _ ih =>
    refine .cons ne ?_
    rw [same a List.mem_cons_self]
    exact ih fun b mem => same b (List.mem_cons_of_mem a mem)

end Follows

/-! ## Entity words -/

variable {core core' : Core} {e e' f f' cf : Nat} {v : Word}

/-- The offset of a field of an entity. -/
lemma fieldOffset_eq (lt : e < core.mem.numEdicts) (ok : fieldOk core f 1 = true) :
    core.mem.fieldOffset e f 1 = some (e * core.mem.stride + 4 * f) := by
  unfold fieldOk at ok
  have inside := of_decide_eq_true ok
  unfold Memory.fieldOffset
  rw [if_neg (by omega), if_neg (by omega)]

/-- A field word lies in its entity's block. -/
lemma fieldOffset_elim {o : Nat} (h : core.mem.fieldOffset e f 1 = some o) :
    e < core.mem.numEdicts ∧ 4 * f + 4 ≤ core.mem.fieldBytes ∧ o = e * core.mem.stride + 4 * f := by
  unfold Memory.fieldOffset at h
  split at h
  next => cases h
  next lt =>
    split at h
    next => cases h
    next fits => exact ⟨by omega, by omega, (Option.some.inj h).symm⟩

/-- Different words of entity blocks lie apart. -/
lemma words_apart (e e' : Nat) {stride : Nat} (inside : 4 * f + 4 ≤ stride) (inside' : 4 * f' + 4 ≤ stride)
    (ne : e = e' → f ≠ f') : e * stride + 4 * f + 4 ≤ e' * stride + 4 * f' ∨
      e' * stride + 4 * f' + 4 ≤ e * stride + 4 * f := by
  rcases Nat.lt_trichotomy e e' with lt | rfl | gt
  · have apart := Nat.mul_le_mul_right stride (Nat.succ_le_of_lt lt)
    rw [Nat.succ_mul] at apart
    omega
  · have other := ne rfl
    omega
  · have apart := Nat.mul_le_mul_right stride (Nat.succ_le_of_lt gt)
    rw [Nat.succ_mul] at apart
    omega

/-- A field word fits into region E. -/
lemma fieldOffset_fits {o : Nat} (r : core.mem.Regions) (h : core.mem.fieldOffset e f 1 = some o) :
    o + 4 ≤ core.mem.e.size := by
  obtain ⟨lt, inside, rfl⟩ := fieldOffset_elim h
  have block := r.fields_le
  rw [r.numEdicts] at lt
  have last := Nat.mul_le_mul_right core.mem.stride (Nat.succ_le_of_lt lt)
  rw [Nat.succ_mul] at last
  rw [r.e_size]
  omega

/-- Nothing but the chain field of the entities listed differs between two cores. -/
structure Linked (core core' : Core) (cf : Nat) (entities : List Nat) : Prop where
  rest : core' = { core with mem := { core.mem with e := core'.mem.e } }
  size : core'.mem.e.size = core.mem.e.size
  bytes : ∀ i, (∀ e ∈ entities, i < e * core.mem.stride + 4 * cf ∨ e * core.mem.stride + 4 * cf + 4 ≤ i) →
    core'.mem.e.get i = core.mem.e.get i

namespace Linked

variable {l l' : List Nat}

/-- A core is linked to itself. -/
lemma refl (core : Core) (cf : Nat) (l : List Nat) : Linked core core cf l := ⟨rfl, rfl, fun _ _ => rfl⟩

/-- Linking keeps the order of the regions. -/
lemma regions (h : Linked core core' cf l) (r : core.mem.Regions) : core'.mem.Regions := by
  have size := h.size
  rw [h.rest]
  exact ⟨r.s_le, size.trans r.e_size, r.fields_le, r.slots_le, r.base_pos⟩

/-- Linking keeps where fields are. -/
lemma fieldOffset (h : Linked core core' cf l) (e f : Nat) :
    core'.mem.fieldOffset e f 1 = core.mem.fieldOffset e f 1 := by
  rw [h.rest]
  rfl

/-- Linkings in sequence link all their entities. -/
lemma trans {core'' : Core} (h : Linked core core' cf l) (h' : Linked core' core'' cf l') :
    Linked core core'' cf (l ++ l') := by
  have stride : core'.mem.stride = core.mem.stride := by rw [h.rest]; rfl
  refine ⟨?_, h'.size.trans h.size, fun i out => ?_⟩
  · rw [h'.rest, h.rest]
  · rw [h'.bytes i fun e mem => ?_, h.bytes i fun e mem => out e (List.mem_append_left _ mem)]
    rw [stride]
    exact out e (List.mem_append_right _ mem)

/-- The other entity words are as before. -/
lemma word_eq (h : Linked core core' cf l) (r : core.mem.Regions) (ok : fieldOk core cf 1 = true)
    (other : e ∈ l → f ≠ cf) : entityWord core' e f = entityWord core e f := by
  unfold entityWord
  rw [h.fieldOffset]
  cases found : core.mem.fieldOffset e f 1 with
  | none => rfl
  | some o =>
    refine congrArg (·.getD 0) (u32At_congr h.size fun i lo hi => h.bytes i fun e' mem => ?_)
    obtain ⟨_, inside, rfl⟩ := fieldOffset_elim found
    have block := r.fields_le
    have chain := of_decide_eq_true ok
    have apart := words_apart e e' (inside.trans block) (show 4 * cf + 4 ≤ core.mem.stride by omega)
      fun same => other (same ▸ mem)
    omega

end Linked

/-- Setting the chain field of an entity links it. -/
lemma linked_setEntityWord (core : Core) (e cf : Nat) (v : Word) :
    Linked core (setEntityWord core e cf v) cf [e] := by
  unfold setEntityWord
  cases found : core.mem.fieldOffset e cf 1 with
  | none => exact .refl core cf [e]
  | some o =>
    obtain ⟨_, _, rfl⟩ := fieldOffset_elim found
    refine ⟨rfl, rfl, fun i out => ?_⟩
    exact Arr.get_write_of_outside (by rw [length_leBytes]; exact out e List.mem_cons_self)

/-- The word that was written. -/
lemma entityWord_setEntityWord (r : core.mem.Regions) (lt : e < core.mem.numEdicts)
    (ok : fieldOk core cf 1 = true) : entityWord (setEntityWord core e cf v) e cf = v := by
  have found := fieldOffset_eq lt ok
  have fits := fieldOffset_fits r found
  unfold entityWord setEntityWord
  rw [found]
  dsimp only
  have found' : (core.mem.setEntWord (e * core.mem.stride + 4 * cf) v).fieldOffset e cf 1
    = some (e * core.mem.stride + 4 * cf) := found
  rw [found']
  dsimp only
  unfold Memory.entWord Memory.setEntWord
  rw [u32At_putU32_self fits]
  rfl

/-- The entity a chain field refers to. -/
def nextInChain (core : Core) (cf e : Nat) : Nat := (entityWord core e cf).toNat

/-- The loop of `build_chain` puts what it is given in front of the chain it has. -/
lemma follows_links (r : core.mem.Regions) (ok : fieldOk core cf 1 = true) {found : List Nat}
    (nodup : found.Nodup) (live : ∀ e ∈ found, 0 < e ∧ e < core.mem.numEdicts) {chain : Nat}
    (small : chain ≤ u32Max) {visited : List Nat}
    (h : Follows (nextInChain core cf) 0 chain visited) (new : ∀ e ∈ found, e ∉ visited) :
    Follows (nextInChain (found.foldl (linkOne cf) (core, chain)).1 cf) 0
        (found.foldl (linkOne cf) (core, chain)).2 (found.reverse ++ visited) ∧
      Linked core (found.foldl (linkOne cf) (core, chain)).1 cf found := by
  induction found generalizing core chain visited with
  | nil => exact ⟨h, .refl core cf []⟩
  | cons e found ih =>
    rw [List.foldl_cons]
    obtain ⟨pos, lt⟩ := live e List.mem_cons_self
    have linked := linked_setEntityWord core e cf (BitVec.ofNat 32 chain)
    have start : Follows (nextInChain (setEntityWord core e cf (BitVec.ofNat 32 chain)) cf) 0 e
        (e :: visited) := by
      refine .cons (Nat.ne_of_gt pos) ?_
      have next : nextInChain (setEntityWord core e cf (BitVec.ofNat 32 chain)) cf e = chain := by
        unfold nextInChain
        rw [entityWord_setEntityWord r lt ok, BitVec.toNat_ofNat, Nat.mod_eq_of_lt]
        unfold u32Max at small
        omega
      rw [next]
      refine h.congr fun b mem => congrArg BitVec.toNat (linked.word_eq r ok fun same => ?_)
      rw [List.mem_singleton.mp same] at mem
      exact absurd mem (new e List.mem_cons_self)
    have ok' : fieldOk (setEntityWord core e cf (BitVec.ofNat 32 chain)) cf 1 = true := by
      rw [linked.rest]
      exact ok
    have edicts : (setEntityWord core e cf (BitVec.ofNat 32 chain)).mem.numEdicts = core.mem.numEdicts := by
      rw [linked.rest]
      rfl
    have bound : e ≤ u32Max := Nat.le_of_lt (lt.trans_le (Nat.min_le_right _ _))
    obtain ⟨follows, linked'⟩ := ih (linked.regions r) ok' nodup.of_cons (fun b mem => by
      rw [edicts]
      exact live b (List.mem_cons_of_mem e mem)) bound start (fun b mem => by
        refine List.not_mem_cons_of_ne_of_not_mem ?_ (new b (List.mem_cons_of_mem e mem))
        rintro rfl
        exact (List.nodup_cons.mp nodup).1 mem)
    refine ⟨?_, linked.trans linked'⟩
    rw [List.reverse_cons, List.append_assoc]
    exact follows

/-! ## The searches -/

/-- The live entities are those in use, without the world. -/
lemma mem_live : e ∈ live core ↔ (0 < e ∧ e < core.mem.numEdicts) ∧ core.mem.inUse e = true := by
  have first : max (saturatingAdd 0 1) 1 = 1 := by decide
  unfold live liveAfter
  dsimp only
  rw [first, List.mem_filter, List.mem_range'_1]
  refine and_congr_left fun _ => ?_
  omega

/-- The live entities are in increasing order. -/
lemma pairwise_live (core : Core) : (live core).Pairwise (· < ·) :=
  List.Pairwise.filter _ List.pairwise_lt_range'

/-- An entity in use that is judged to match. -/
def Matches (core : Core) (judge : Nat → Bool) (e : Nat) : Prop :=
  (0 < e ∧ e < core.mem.numEdicts) ∧ core.mem.inUse e = true ∧ judge e = true

/-- The chain of a search: it visits the entities that matched before the search, the last one first, and
ends at the world; and nothing but their chain field is written. -/
structure ChainOf (core core' : Core) (cf head : Nat) (judge : Nat → Bool) : Prop where
  visits : ∃ visited, Follows (nextInChain core' cf) 0 head visited ∧ visited.Pairwise (· > ·) ∧
    ∀ e, e ∈ visited ↔ Matches core judge e
  words : ∀ e f, (f = cf → ¬ Matches core judge e) → entityWord core' e f = entityWord core e f
  bytes : ∀ i, (∀ e, Matches core judge e →
      i < e * core.mem.stride + 4 * cf ∨ e * core.mem.stride + 4 * cf + 4 ≤ i) →
    core'.mem.e.get i = core.mem.e.get i
  rest : core' = { core with mem := { core.mem with e := core'.mem.e } }

/-- The chain of a list of matches in ascending order. -/
lemma chainOf_buildChain (r : core.mem.Regions) (ok : fieldOk core cf 1 = true) (judge : Nat → Bool) :
    ChainOf core (buildChain core ((live core).filter judge) cf).1 cf
      (buildChain core ((live core).filter judge) cf).2 judge := by
  have ascending := (pairwise_live core).filter (p := judge)
  have found (e : Nat) : e ∈ (live core).filter judge ↔ Matches core judge e := by
    rw [List.mem_filter, mem_live, and_assoc]
    rfl
  obtain ⟨follows, linked⟩ := follows_links r ok
    (ascending.imp fun lt => Nat.ne_of_lt lt) (fun e mem => ((found e).mp mem).1) (Nat.zero_le _)
    (.nil : Follows _ 0 0 [])
    (fun _ _ => List.not_mem_nil)
  rw [List.append_nil] at follows
  refine ⟨⟨_, follows, ?_, fun e => ?_⟩, fun e f other => ?_, fun i out => ?_, linked.rest⟩
  · exact List.pairwise_reverse.mpr ascending
  · rw [List.mem_reverse, found]
  · exact linked.word_eq r ok fun mem same => other same ((found e).mp mem)
  · exact linked.bytes i fun e mem => out e ((found e).mp mem)

/-- A search with valid fields builds its chain. -/
lemma searchChain_ok (name : String) {f : Word} {passed : Option Word} {judge : Word → Bool}
    (r : core.mem.Regions) (chain : (passed.map (·.toNat)).or (fieldWord core "chain") = some cf)
    (ok : fieldOk core cf 1 = true) (field : fieldOk core f.toNat 1 = true) :
    ∃ core' head, searchChain name core f passed judge = .ok (core', head) ∧
      ChainOf core core' cf head fun e => judge (entityWord core e f.toNat) := by
  refine ⟨_, _, ?_, chainOf_buildChain r ok _⟩
  unfold searchChain chainField
  rw [chain]
  dsimp only
  rw [if_pos ok]
  exact if_pos field

/-- The searches chain exactly what matched when they were called, whatever the chain field held and
whether or not it is the field that is searched. -/
theorem chains_exact (F : FloatOps) {f : Word} {passed : Option Word} (r : core.mem.Regions)
    (chain : (passed.map (·.toNat)).or (fieldWord core "chain") = some cf)
    (ok : fieldOk core cf 1 = true) (field : fieldOk core f.toNat 1 = true) :
    (∀ want, ∃ core' head, findchain core f want passed = .ok (core', head) ∧
      ChainOf core core' cf head fun e => entityWord core e f.toNat != 0 &&
        (core.strBytes (entityWord core e f.toNat)).getD [] == want) ∧
    (∀ want, ∃ core' head, findchainfloat F core f want passed = .ok (core', head) ∧
      ChainOf core core' cf head fun e => F.eq (entityWord core e f.toNat) want) ∧
    ∀ flags, ∃ core' head, findchainflags F core f flags passed = .ok (core', head) ∧
      ChainOf core core' cf head fun e => F.f2i (entityWord core e f.toNat) &&& F.f2i flags != 0 :=
  ⟨fun _ => searchChain_ok _ r chain ok field, fun _ => searchChain_ok _ r chain ok field,
    fun _ => searchChain_ok _ r chain ok field⟩

/-- Two entities in use besides the world, in blocks of zeros. -/
def chainCore : Core :=
  { Core.bare with
    mem := { Core.bare.mem with
      e := .tabulate 48 fun _ => 0
      maxEdicts := 3
      slots := List.replicate 3 ⟨true, false, 0, 1⟩
      hBase := 64 } }

/-- A search through the field that becomes the chain. -/
theorem chains_exact_same_field : ∃ core' head,
    findchainfloat .onZero chainCore 0 0 (some 0) = .ok (core', head) ∧
      ChainOf chainCore core' 0 head fun e => FloatOps.onZero.eq (entityWord chainCore e 0) 0 :=
  (chains_exact .onZero ⟨by decide, by decide, by decide, by decide, by decide⟩ rfl (by decide)
    (by decide)).2.1 0

/-- It finds both. -/
example : (findchainfloat .onZero chainCore 0 0 (some 0)).toOption.map (·.2) = some 2 := by
  decide +kernel

end Qcvm.Stdlib

import Qcvm.Interp.PointerMemory
import Qcvm.Lib.Visits
import Qcvm.Stdlib.Chains
import Qcvm.Vm.Calls

/-!
# Searching loops

`nextent`, `find`, `findfloat` and `findflags` of `stdlib/entity.rs` return the next entity in use that
matches, so QuakeC calls them in a loop, each time from the entity that the last call returned, until they
return the world. The body of the loop may change anything: it may write fields, free the entity found or
spawn others. The loop ends, visits no entity twice, and misses none that matches all the time. A loop that
changes nothing visits the chain of the search that chains, from its end, and the array of `find_list`.
-/

namespace Qcvm.Stdlib

open Lib

/-- The first of `live_after` that matches, or the world. -/
def nextMatch (core : Core) (judge : Nat → Bool) (start : Word) : Nat :=
  ((liveAfter core start.toNat).find? judge).getD 0

/-- The string test of `find`: searching for an empty string matches null and empty fields. -/
def findText (core : Core) (f : Word) (want : List Byte) (e : Nat) : Bool :=
  let t := entityWord core e f.toNat
  let text := (core.strBytes t).getD []
  if want.isEmpty then t == 0 || text.isEmpty else t != 0 && text == want

/-- A call of a builtin that returns the next match; `argc` is the number of arguments passed. -/
inductive Search where
  | nextent
  | find (f : Word) (want : List Byte)
  | findfloat (argc : Nat) (f want : Word)
  | findflags (f flags : Word)
  deriving DecidableEq, Repr

namespace Search

variable (F : FloatOps)

/-- The test of an entity. -/
def judge (core : Core) : Search → Nat → Bool
  | .nextent, _ => true
  | .find f want, e => findText core f want e
  | .findfloat _ f want, e => entityWord core e f.toNat == want
  | .findflags f flags, e => F.f2i (entityWord core e f.toNat) &&& F.f2i flags != 0

/-- What the call returns, and the core after it: `find` warns of an empty string in developer mode. -/
def call (core : Core) (start : Word) : Search → Except VmError Nat × Core
  | .nextent => (.ok (nextMatch core (judge F core .nextent) start), core)
  | .find f want =>
    if fieldOk core f.toNat 1 then
      let core := if want.isEmpty && core.config.developer then
        core.warn (.builtin "find: empty string") else core
      (.ok (nextMatch core (judge F core (.find f want)) start), core)
    else (.error (badField "find"), core)
  | .findfloat argc f want =>
    if argc ≠ 3 then (.error (.new (.builtin "findfloat: exactly 3 arguments are required")), core)
    else if fieldOk core f.toNat 1 then
      (.ok (nextMatch core (judge F core (.findfloat argc f want)) start), core)
    else (.error (badField "findfloat"), core)
  | .findflags f flags =>
    if fieldOk core f.toNat 1 then
      (.ok (nextMatch core (judge F core (.findflags f flags)) start), core)
    else (.error (badField "findflags"), core)

/-- The call is valid: its field reference is a field's, and `findfloat` gets three arguments. -/
def Valid (core : Core) : Search → Prop
  | .nextent => True
  | .find f _ => fieldOk core f.toNat 1 = true
  | .findfloat argc f _ => argc = 3 ∧ fieldOk core f.toNat 1 = true
  | .findflags f _ => fieldOk core f.toNat 1 = true

/-- What the searches of a loop return; `before i` is the core that the body has left when the search is
made. -/
def returns (s : Search) (before : Nat → Core) : Nat → Except VmError Nat
  | 0 => (s.call F (before 0) 0).1
  | i + 1 => (s.returns before i).bind fun e => (s.call F (before (i + 1)) (BitVec.ofNat 32 e)).1

end Search

/-! ## One search -/

section Search

variable {F : FloatOps} {core : Core} {s : Search} {e start : Nat}

lemma mem_liveAfter : e ∈ liveAfter core start ↔
    (saturatingAdd start 1 ≤ e ∧ 0 < e ∧ e < core.mem.numEdicts) ∧ core.mem.inUse e = true := by
  unfold liveAfter
  dsimp only
  rw [List.mem_filter, List.mem_range'_1]
  refine and_congr_left fun _ => ?_
  omega

/-- An entity number is a word. -/
lemma numEdicts_le (core : Core) : core.mem.numEdicts ≤ u32Max := Nat.min_le_right _ _

/-- A search finds the next match. -/
lemma nextAfter_nextMatch (judge : Nat → Bool) (small : start < 2 ^ 32) :
    NextAfter (Matches core judge) start (nextMatch core judge (BitVec.ofNat 32 start)) := by
  have value : (BitVec.ofNat 32 start).toNat = start := by
    rw [BitVec.toNat_ofNat, Nat.mod_eq_of_lt small]
  have later (x : Nat) : saturatingAdd start 1 ≤ x ∧ x < core.mem.numEdicts ↔
      start < x ∧ x < core.mem.numEdicts := by
    have bound := numEdicts_le core
    unfold saturatingAdd
    unfold u32Max at bound ⊢
    omega
  have visible (x : Nat) (matches' : Matches core judge x) (after : start < x) :
      x ∈ liveAfter core start := by
    obtain ⟨⟨pos, lt⟩, live, -⟩ := matches'
    exact mem_liveAfter.mpr ⟨⟨((later x).mpr ⟨after, lt⟩).1, pos, lt⟩, live⟩
  have sorted : (liveAfter core start).Pairwise (· < ·) :=
    List.Pairwise.filter _ List.pairwise_lt_range'
  unfold nextMatch
  rw [value]
  cases found : (liveAfter core start).find? judge with
  | none =>
    refine .inl ⟨rfl, fun x after matches' => ?_⟩
    exact List.find?_eq_none.mp found x (visible x matches' after) matches'.2.2
  | some e =>
    obtain ⟨holds, early, late, split, missed⟩ := List.find?_eq_some_iff_append.mp found
    have mem : e ∈ liveAfter core start := by
      rw [split]
      exact List.mem_append_right _ List.mem_cons_self
    obtain ⟨⟨low, pos, lt⟩, live⟩ := mem_liveAfter.mp mem
    refine .inr ⟨((later e).mp ⟨low, lt⟩).1, ⟨⟨pos, lt⟩, live, holds⟩, fun x after before matches' => ?_⟩
    have inside := visible x matches' after
    rw [split] at inside sorted
    rcases List.mem_append.mp inside with first | rest
    · have refused := missed x first
      rw [matches'.2.2] at refused
      cases refused
    · rcases List.mem_cons.mp rest with rfl | rest
      · exact Nat.lt_irrefl _ before
      · have after' := (List.pairwise_cons.mp (List.pairwise_append.mp sorted).2.1).1 x rest
        exact Nat.lt_asymm before after'

/-- What a search asks of the core does not depend on the warnings. -/
lemma nextMatch_warn (kind : WarningKind) (f : Word) (want : List Byte) (start : Word) :
    nextMatch (core.warn kind) ((Search.find f want).judge F (core.warn kind)) start =
      nextMatch core ((Search.find f want).judge F core) start := by
  unfold Core.warn
  dsimp only
  split <;> rfl

lemma call_eq (valid : s.Valid core) (start : Word) :
    (s.call F core start).1 = .ok (nextMatch core (s.judge F core) start) := by
  cases s with
  | nextent => rfl
  | find f want =>
    have field : fieldOk core f.toNat 1 = true := valid
    unfold Search.call
    dsimp only
    rw [if_pos field]
    split
    next => exact congrArg Except.ok (nextMatch_warn _ f want start)
    next => rfl
  | findfloat argc f want =>
    obtain ⟨three, field⟩ := valid
    unfold Search.call
    dsimp only
    rw [if_neg (not_not.mpr three), if_pos field]
  | findflags f flags =>
    have field : fieldOk core f.toNat 1 = true := valid
    unfold Search.call
    dsimp only
    rw [if_pos field]

end Search

/-! ## Loops of searches -/

section Loops

variable {F : FloatOps} {s : Search} {before : Nat → Core} {M : Nat}

/-- What the searches of a loop return, and what it visits. -/
lemma loop_visits (valid : ∀ i, s.Valid (before i)) (bound : ∀ i, (before i).mem.numEdicts ≤ M) :
    ∃ e visited, (∀ i, s.returns F before i = .ok (e i)) ∧ visited.length ≤ M - 1 ∧
      Visited (fun i => Matches (before i) (s.judge F (before i))) e 0 visited := by
  let found : Nat → Nat := Nat.rec (nextMatch (before 0) (s.judge F (before 0)) 0) fun i e =>
    nextMatch (before (i + 1)) (s.judge F (before (i + 1))) (BitVec.ofNat 32 e)
  have returned (i : Nat) : s.returns F before i = .ok (found i) := by
    induction i with
    | zero => exact call_eq (valid 0) 0
    | succ i ih =>
      unfold Search.returns
      rw [ih]
      exact call_eq (valid (i + 1)) _
  have next (i start : Nat) (small : start < 2 ^ 32) :
      NextAfter (Matches (before i) (s.judge F (before i))) start
        (nextMatch (before i) (s.judge F (before i)) (BitVec.ofNat 32 start)) :=
    nextAfter_nextMatch _ small
  -- What is found is searched from next, so it must be a word again.
  have word (i start : Nat) (small : start < 2 ^ 32) :
      nextMatch (before i) (s.judge F (before i)) (BitVec.ofNat 32 start) < 2 ^ 32 := by
    rcases next i start small with ⟨zero, -⟩ | ⟨-, ⟨⟨-, lt⟩, -⟩, -⟩
    · omega
    · have edicts := numEdicts_le (before i)
      unfold u32Max at edicts
      omega
  have small (i : Nat) : found i < 2 ^ 32 := by
    induction i with
    | zero => exact word 0 0 (by decide)
    | succ i ih => exact word (i + 1) (found i) ih
  obtain ⟨visited, v, short⟩ := @exists_visited M (fun i => Matches (before i) (s.judge F (before i))) found
    0 (next 0 0 (by decide)) (fun i _ => next (i + 1) (found i) (small i))
    fun i e matches' => Nat.lt_of_lt_of_le matches'.1.2 (bound i)
  exact ⟨found, visited, returned, short, v⟩

/-- **A searching loop ends, whatever its body does.** It makes at most as many visits as the limit leaves
entities besides the world; each entity that it visits is in use and matches when it is found, none is
visited twice, they are visited in ascending order, and one that matches at every search is not missed. -/
theorem search_loop_ends (valid : ∀ i, s.Valid (before i)) (layout : ∀ i, (before i).mem.Layout)
    (limit : ∀ i, (before i).mem.maxEdicts ≤ M) :
    ∃ visited : List Nat, visited.length ≤ M - 1 ∧
      s.returns F before visited.length = .ok 0 ∧
      (∀ i (lt : i < visited.length), s.returns F before i = .ok visited[i] ∧
        Matches (before i) (s.judge F (before i)) visited[i]) ∧
      visited.Pairwise (· < ·) ∧
      ∀ e, (∀ i ≤ visited.length, Matches (before i) (s.judge F (before i)) e) → e ∈ visited := by
  have bound (i : Nat) : (before i).mem.numEdicts ≤ M := by
    rw [(layout i).toRegions.numEdicts]
    exact (layout i).slots_le_max.trans (limit i)
  obtain ⟨found, visited, returned, short, v⟩ := loop_visits (F := F) valid bound
  refine ⟨visited, short, (returned _).trans (congrArg _ v.ends), fun i lt => ?_,
    (List.pairwise_cons.mp v.ascending).2, fun e always => v.all e ?_ always⟩
  · obtain ⟨same, holds⟩ := v.each i lt
    exact ⟨(returned i).trans (congrArg _ same), holds⟩
  · exact (always 0 (Nat.zero_le _)).1.1

/-- A loop over all entities whose body frees the last entity after the first visit. -/
theorem search_loop_ends_freed : ∃ visited : List Nat, visited.length ≤ 2 ∧
    Search.nextent.returns .onZero (fun i => if i = 0 then chainCore else
      { chainCore with mem := chainCore.mem.modifySlot 2 fun slot => { slot with inUse := false } })
      visited.length = .ok 0 ∧ visited.Pairwise (· < ·) := by
  obtain ⟨visited, short, last, -, sorted, -⟩ := @search_loop_ends .onZero .nextent
    (fun i => if i = 0 then chainCore else
      { chainCore with mem := chainCore.mem.modifySlot 2 fun slot => { slot with inUse := false } })
    3 (fun _ => trivial)
    (fun i => by
      dsimp only
      split <;> exact ⟨⟨by decide, by decide, by decide, by decide, by decide⟩, by decide, by decide,
        Nat.le_refl 0, by decide⟩)
    fun i => by
      dsimp only
      split <;> decide
  exact ⟨visited, short, last, sorted⟩

end Loops

/-! ## Lists of entities -/

/-- `type_words`: the words of a value of a type that `find_list` accepts. -/
def typeWords (ty : Int) : Option Nat :=
  if 0 ≤ ty ∧ ty ≤ 2 ∨ 4 ≤ ty ∧ ty ≤ 9 then some 1
  else if ty = 3 then some 3
  else if 10 ≤ ty ∧ ty ≤ 12 then some 2
  else none

/-- The test of `find_list`: `want` are the words of its second argument, `text` their text. -/
def listJudge (F : FloatOps) (core : Core) (f : Word) (ty : Int) (want : List Word) (text : List Byte)
    (e : Nat) : Bool :=
  let w (k : Word) := entityWord core e (f + k).toNat
  let given (k : Nat) := want.getD k 0
  if ty = 1 then !core.mem.guarded e && (w 0 != 0 && (core.strBytes (w 0)).getD [] == text)
  else if ty = 2 then F.eq (w 0) (given 0)
  else if ty = 3 then F.eq (w 0) (given 0) && F.eq (w 1) (given 1) && F.eq (w 2) (given 2)
  else if ty = 12 then F.eqD (w 1 ++ w 0) (given 1 ++ given 0)
  else if ty = 10 ∨ ty = 11 then w 0 == given 0 && w 1 == given 1
  else w 0 == given 0

/-- `set_arg_word`. -/
def setArgWord (core : Core) (i : Nat) (word : Word) : Core :=
  if i < 8 then { core with mem := core.mem.setG (core.gbase + ofsParm0 + i * 12) word } else core

/-- The bytes of a zero-terminated array of entity numbers. -/
def arrayBytes (list : List Nat) : List Byte := (list ++ [0]).flatMap fun e => leBytes (BitVec.ofNat 32 e)

/-- `ret_list`: returns a temporary array, whose handle is the value here; the count goes to a parameter. -/
def retList (core : Core) (list : List Nat) (countArg : Nat) : Except ErrorKind Word × Core :=
  match core.strings.alloc (arrayBytes list) with
  | (.error r, strings) => (.error (.outOfMemory r), { core with strings := strings })
  | (.ok handle, strings) =>
    (.ok handle, (setArgWord { core with strings := strings } countArg
      (BitVec.ofNat 32 (min list.length u32Max))).retRaw [handle, 0, 0])

/-- `find_list`; a type or a field that is not valid returns null and the count 0. -/
def findList (F : FloatOps) (core : Core) (f : Word) (ty : Int) (want : List Word) (text : List Byte) :
    Except ErrorKind Word × Core :=
  if (typeWords ty).any (fieldOk core f.toNat) then
    retList core ((live core).filter (listJudge F core f ty want text)) 3
  else (.ok 0, (setArgWord core 3 0).retRaw [0, 0, 0])

section Lists

variable {F : FloatOps} {core core' : Core} {s : Search} {f : Word} {cf : Nat}

/-- A loop that changes nothing visits these entities. -/
def Search.Lists (F : FloatOps) (s : Search) (core : Core) (visited : List Nat) : Prop :=
  (∀ i (lt : i < visited.length), s.returns F (fun _ => core) i = .ok visited[i]) ∧
    s.returns F (fun _ => core) visited.length = .ok 0

/-- Lists in ascending order are equal if they have the same members. -/
lemma ascending_ext {l l' : List Nat} (sorted : l.Pairwise (· < ·)) (sorted' : l'.Pairwise (· < ·))
    (same : ∀ x, x ∈ l ↔ x ∈ l') : l = l' :=
  List.Perm.eq_of_pairwise' sorted sorted'
    ((List.perm_ext_iff_of_nodup (sorted.imp Nat.ne_of_lt) (sorted'.imp Nat.ne_of_lt)).mpr same)

lemma lists (valid : s.Valid core) : s.Lists F core ((live core).filter (s.judge F core)) := by
  obtain ⟨found, visited, returned, -, v⟩ :=
    @loop_visits F s (fun _ => core) core.mem.numEdicts (fun _ => valid) fun _ => Nat.le_refl _
  have same : visited = (live core).filter (s.judge F core) := by
    refine ascending_ext (List.pairwise_cons.mp v.ascending).2 ((pairwise_live core).filter _) fun x => ?_
    rw [v.mem_iff, List.mem_filter, mem_live, and_assoc]
    exact ⟨And.right, fun holds => ⟨holds.1.1, holds⟩⟩
  rw [← same]
  exact ⟨fun i lt => (returned i).trans (congrArg _ (v.each i lt).1),
    (returned _).trans (congrArg _ v.ends)⟩

/-- A search that chains links the entities that a loop visits, the last one first. -/
lemma chain_reverses (name : String) {passed : Option Word} (judge : Word → Bool) (r : core.mem.Regions)
    (chain : (passed.map (·.toNat)).or (fieldWord core "chain") = some cf)
    (ok : fieldOk core cf 1 = true) (field : fieldOk core f.toNat 1 = true) :
    ∃ core' head, searchChain name core f passed judge = .ok (core', head) ∧
      Follows (nextInChain core' cf) 0 head
        ((live core).filter fun e => judge (entityWord core e f.toNat)).reverse := by
  have sorted := (pairwise_live core).filter fun e => judge (entityWord core e f.toNat)
  have follows := (follows_links r ok (sorted.imp fun lt => Nat.ne_of_lt lt)
    (fun e mem => (mem_live.mp (List.mem_filter.mp mem).1).1) (Nat.zero_le _)
    (.nil : Follows _ 0 0 []) (fun _ _ => List.not_mem_nil)).1
  rw [List.append_nil] at follows
  refine ⟨_, _, ?_, follows⟩
  unfold searchChain chainField
  rw [chain]
  dsimp only
  rw [if_pos ok]
  exact if_pos field

/-- No region reaches a handle of a temp string. -/
lemma locate_high {m : Memory} (l : m.Layout) {p : Word} {n : Nat} (high : 2 ^ 31 ≤ p.toNat) (some : 0 < n) :
    m.locate p n = none := by
  have s_le := l.s_le
  have e_le := l.e_le
  have h_le := l.h_le
  cases found : m.locate p n with
  | none => rfl
  | some loc =>
    have fits := l.toRegions.locate_fits found
    unfold Memory.locate at found
    split at found
    next => omega
    next =>
      rcases Option.or_eq_some_iff.mp found with entity | ⟨-, heap⟩
      · unfold Memory.locateEntity at entity
        dsimp only at entity
        split at entity
        next => cases entity
        next =>
          split at entity
          next =>
            cases entity
            have fits : p.toNat - m.eBase + n ≤ m.e.size := fits
            omega
          next => cases entity
      · unfold Memory.locateHeap at heap
        split at heap
        next => omega
        next => cases heap

lemma length_arrayBytes (list : List Nat) : (arrayBytes list).length = 4 * (list.length + 1) := by
  unfold arrayBytes
  rw [List.length_flatMap]
  simp
  omega

/-- A byte of the array is one of its word's. -/
lemma getD_arrayBytes {list : List Nat} {i j : Nat} (inside : i ≤ list.length) (small : j < 4) :
    (arrayBytes list).getD (4 * i + j) 0 =
      (leBytes (BitVec.ofNat 32 ((list ++ [0]).getD i 0))).getD j 0 := by
  unfold arrayBytes
  have lt : i < (list ++ [0]).length := by
    rw [List.length_append, List.length_singleton]
    omega
  generalize list ++ [0] = words at lt
  induction words generalizing i with
  | nil => exact absurd lt (Nat.not_lt_zero i)
  | cons w words ih =>
    rw [List.flatMap_cons]
    cases i with
    | zero =>
      rw [Nat.mul_zero, Nat.zero_add, List.getD_append _ _ _ _ (by rw [length_leBytes]; exact small)]
      rfl
    | succ i =>
      rw [List.getD_append_right _ _ _ _ (by rw [length_leBytes]; omega), length_leBytes,
        show 4 * (i + 1) + j - 4 = 4 * i + j by omega]
      exact ih (Nat.le_of_succ_le inside) (Nat.lt_of_succ_lt_succ lt)

/-- Read word by word through its handle, the array holds these numbers and a zero. -/
def ArrayAt (core : Core) (handle : Word) (list : List Nat) : Prop :=
  ∀ i ≤ list.length, core.ptrRead 4 handle (BitVec.ofNat 32 (4 * i)) =
    .ok (leBytes (BitVec.ofNat 32 ((list ++ [0]).getD i 0)))

lemma shape_setArgWord (i : Nat) (word : Word) :
    (setArgWord core i word).mem.shape = core.mem.shape := by
  unfold setArgWord
  split <;> rfl

lemma strings_setArgWord (i : Nat) (word : Word) : (setArgWord core i word).strings = core.strings := by
  unfold setArgWord
  split <;> rfl

/-- The array that is returned holds the list. -/
lemma arrayAt_retList (l : core.mem.Layout) (exact : core.strings.Exact) {list : List Nat}
    (few : list.length < 2 ^ 28) {countArg : Nat} {handle : Word}
    (done : retList core list countArg = (.ok handle, core')) : ArrayAt core' handle list := by
  unfold retList at done
  cases made : core.strings.alloc (arrayBytes list) with
  | mk outcome strings =>
    rw [made] at done
    cases outcome with
    | error e => cases done
    | ok handle' =>
      dsimp only at done
      cases done
      rcases Strings.alloc_eq core.strings (arrayBytes list) with raw | ⟨-, refused⟩
      · obtain ⟨exact', ⟨slot, rfl, -, stored⟩, -⟩ := exact.allocRaw_ok (raw.symm.trans made)
        have here := stored slot
        rw [if_pos rfl] at here
        have temp : classify (tempHandle slot) = .temp slot :=
          Core.classify_eq_temp.mpr ((eq_tempHandle_iff (exact'.slot_lt here) _).mp rfl)
        have bounds := Core.toNat_of_temp temp
        intro i inside
        have offset : (BitVec.ofNat 32 (4 * i)).toNat = 4 * i := by
          rw [BitVec.toNat_ofNat, Nat.mod_eq_of_lt (by omega)]
        have address : (tempHandle slot + BitVec.ofNat 32 (4 * i)).toNat =
            (tempHandle slot).toNat + 4 * i := by
          rw [BitVec.toNat_add, offset, Nat.mod_eq_of_lt (by omega)]
        generalize after : (setArgWord { core with strings := strings } countArg
          (BitVec.ofNat 32 (min list.length u32Max))).retRaw [tempHandle slot, 0, 0] = core'
        have shape : core'.mem.shape = core.mem.shape := by
          rw [← after]
          exact (Memory.shape_setGs _ _ _).trans (shape_setArgWord _ _)
        have same : core'.strings = strings := by
          rw [← after]
          exact strings_setArgWord _ _
        have missed : core'.mem.read (tempHandle slot + BitVec.ofNat 32 (4 * i)) 4 = none := by
          rw [(l.toRegions.of_shape shape).read_eq, Memory.locate_of_shape shape,
            locate_high l (by omega) (by decide), Option.map_none]
        have usual : tempHandle slot + BitVec.ofNat 32 (4 * i) ≠ Core.sentinelPointer := by
          intro e
          have value : Core.sentinelPointer.toNat = 2 ^ 32 - 1 := rfl
          rw [e, value] at address
          omega
        rw [Core.ptrRead_of_temp missed usual temp (same ▸ here), offset]
        have four (w : Word) : (List.range 4).map (fun j => (leBytes w).getD j 0) = leBytes w := rfl
        refine congrArg Except.ok (Eq.trans (List.map_congr_left fun j mem => ?_) (four _))
        have small := List.mem_range.mp mem
        have within : 4 * i + j < (arrayBytes list).length := by
          rw [length_arrayBytes]
          omega
        have padded : (Arr.ofList (arrayBytes list)).size ≤ Strings.paddedSize (arrayBytes list).length := by
          rw [Arr.size_ofList]
          unfold Strings.paddedSize
          omega
        rw [← getD_arrayBytes inside small]
        exact (Arr.get_resize_of_le padded).trans (Arr.get_tabulate _ within)
      · rw [refused] at made
        cases made

/-- The array of `find_list` holds the matches. -/
lemma arrayAt_findList (l : core.mem.Layout) (exact : core.strings.Exact)
    (few : core.mem.numEdicts ≤ 2 ^ 28) {ty : Int} {want : List Word} {text : List Byte} {handle : Word}
    (valid : (typeWords ty).any (fieldOk core f.toNat) = true)
    (done : findList F core f ty want text = (.ok handle, core')) :
    ArrayAt core' handle ((live core).filter (listJudge F core f ty want text)) := by
  have short : ((live core).filter (listJudge F core f ty want text)).length < 2 ^ 28 := by
    have count := List.length_filter_le (listJudge F core f ty want text) (live core)
    have count' := List.length_filter_le core.mem.inUse
      (List.range' (max (saturatingAdd 0 1) 1) (core.mem.numEdicts - max (saturatingAdd 0 1) 1))
    have one : max (saturatingAdd 0 1) 1 = 1 := by decide
    rw [one, List.length_range'] at count'
    have used : (live core).length ≤ core.mem.numEdicts - 1 := by
      unfold live liveAfter
      dsimp only
      rw [one]
      exact count'
    omega
  unfold findList at done
  rw [if_pos valid] at done
  exact arrayAt_retList l exact short done

/-- The entities whose string field is not null. -/
def notNull (core : Core) (f : Word) (e : Nat) : Bool := entityWord core e f.toNat != 0

/-- What a `find` loop visits and does not have a null field has the text of the field. -/
lemma notNull_and_judge (want : List Byte) (e : Nat) :
    (notNull core f e && (Search.find f want).judge F core e) = (notNull core f e &&
      (core.strBytes (entityWord core e f.toNat)).getD [] == want) := by
  unfold Search.judge findText notNull
  dsimp only
  cases null : entityWord core e f.toNat != 0 with
  | false => rfl
  | true =>
    rw [Bool.true_and, Bool.true_and]
    split
    next empty =>
      have zero : (entityWord core e f.toNat == 0) = false := by
        rw [beq_eq_false_iff_ne]
        exact bne_iff_ne.mp null
      rw [zero, Bool.false_or, List.isEmpty_iff.mp empty]
      cases (core.strBytes (entityWord core e f.toNat)).getD [] <;> rfl
    next => rfl

/-- **The searches agree.** A loop that changes nothing visits the chain of the search that chains from its
end, and for an empty text also the entities whose field is null; the array of `find_list` holds what a
`find` loop visits, but for null fields and protected entities, and for the types that it compares by their
bits what a `findfloat` loop visits. -/
theorem searches_agree (l : core.mem.Layout) (exact : core.strings.Exact)
    (few : core.mem.numEdicts ≤ 2 ^ 28) {passed : Option Word}
    (chain : (passed.map (·.toNat)).or (fieldWord core "chain") = some cf)
    (ok : fieldOk core cf 1 = true) (field : fieldOk core f.toNat 1 = true) :
    (∀ want, ∃ visited core' head, (Search.find f want).Lists F core visited ∧
      (want ≠ [] → visited.filter (notNull core f) = visited) ∧
      findchain core f want passed = .ok (core', head) ∧
      Follows (nextInChain core' cf) 0 head (visited.filter (notNull core f)).reverse ∧
      ∀ given handle core'', findList F core f 1 given want = (.ok handle, core'') →
        ArrayAt core'' handle
          ((visited.filter (notNull core f)).filter fun e => !core.mem.guarded e)) ∧
    (∀ flags, ∃ visited core' head, (Search.findflags f flags).Lists F core visited ∧
      findchainflags F core f flags passed = .ok (core', head) ∧
      Follows (nextInChain core' cf) 0 head visited.reverse) ∧
    ∀ want, ∃ visited, (Search.findfloat 3 f want).Lists F core visited ∧
      ∀ ty rest text handle core', ty = 0 ∨ 4 ≤ ty ∧ ty ≤ 9 →
        findList F core f ty (want :: rest) text = (.ok handle, core') → ArrayAt core' handle visited := by
  have plain (e : Nat) : entityWord core e (f + 0).toNat = entityWord core e f.toNat := by
    rw [show f + 0 = f from BitVec.add_zero f]
  refine ⟨fun want => ?_, fun flags => ?_, fun want => ?_⟩
  · have valid : (Search.find f want).Valid core := field
    obtain ⟨core', head, done, follows⟩ := chain_reverses "findchain"
      (fun t => t != 0 && (core.strBytes t).getD [] == want) l.toRegions chain ok field
    have same : ((live core).filter ((Search.find f want).judge F core)).filter (notNull core f) =
        (live core).filter fun e => entityWord core e f.toNat != 0 &&
          (core.strBytes (entityWord core e f.toNat)).getD [] == want := by
      rw [List.filter_filter]
      exact List.filter_congr fun e _ => notNull_and_judge want e
    refine ⟨_, core', head, lists valid, fun some => ?_, done, same ▸ follows,
      fun given handle core'' listed => ?_⟩
    · refine List.filter_eq_self.mpr fun e mem => ?_
      have visits := (List.mem_filter.mp mem).2
      unfold Search.judge findText at visits
      dsimp only at visits
      rw [if_neg (by rw [List.isEmpty_iff]; exact some)] at visits
      exact (Bool.and_eq_true_iff.mp visits).1
    · have array := arrayAt_findList l exact few
        (show (typeWords 1).any (fieldOk core f.toNat) = true from field) listed
      rw [same, List.filter_filter]
      refine Eq.mp (congrArg (ArrayAt core'' handle) (List.filter_congr fun e _ => ?_)) array
      show (!core.mem.guarded e && (entityWord core e (f + 0).toNat != 0 &&
        (core.strBytes (entityWord core e (f + 0).toNat)).getD [] == want)) = _
      rw [plain]
  · obtain ⟨core', head, done, follows⟩ := chain_reverses "findchainflags"
      (fun t => F.f2i t &&& F.f2i flags != 0) l.toRegions chain ok field
    exact ⟨_, core', head, @lists F core (.findflags f flags) field, done, follows⟩
  · refine ⟨_, @lists F core (.findfloat 3 f want) ⟨rfl, field⟩,
      fun ty rest text handle core' kind listed => ?_⟩
    have one : typeWords ty = some 1 := by
      unfold typeWords
      rw [if_pos (by omega)]
    have array := arrayAt_findList l exact few (by rw [one]; exact field) listed
    refine Eq.mp (congrArg (ArrayAt core' handle) (List.filter_congr fun e _ => ?_)) array
    unfold listJudge
    dsimp only
    rw [if_neg (by omega), if_neg (by omega), if_neg (by omega), if_neg (by omega), if_neg (by omega), plain]
    rfl

/-- A `find` loop for an empty text visits the entities with a null field, which are not chained; a
`findfloat` loop for zero visits what `find_list` returns. -/
theorem searches_agree_zero : ∃ core : Core,
    (∃ visited core' head, (Search.find 0 []).Lists .onZero core visited ∧
      findchain core 0 [] (some 0) = .ok (core', head) ∧
      Follows (nextInChain core' 0) 0 head (visited.filter (notNull core 0)).reverse) ∧
    ∃ visited, (Search.findfloat 3 0 0).Lists .onZero core visited ∧
      ∀ ty rest text handle core', ty = 0 ∨ 4 ≤ ty ∧ ty ≤ 9 →
        findList .onZero core 0 ty (0 :: rest) text = (.ok handle, core') →
          ArrayAt core' handle visited := by
  obtain ⟨texts, -, bits⟩ := @searches_agree .onZero { chainCore with strings := .new 4 64 }
    0 0 ⟨⟨by decide, by decide, by decide, by decide, by decide⟩, by decide, by decide,
      Nat.le_refl 0, by decide⟩
    (Strings.exact_new 4 64) (by decide) (some 0) rfl (by decide) (by decide)
  obtain ⟨visited, core', head, lists, -, chained, follows, -⟩ := texts []
  exact ⟨_, ⟨visited, core', head, lists, chained, follows⟩, bits 0⟩

end Lists

end Qcvm.Stdlib

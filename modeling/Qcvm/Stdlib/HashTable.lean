import Mathlib.Data.List.Induction
import Mathlib.Logic.Function.Basic
import Qcvm.Stdlib.Accounting

/-!
# Hash tables as maps of stacks

A table behaves as a map from keys to stacks of typed values. `Stacks` is that map, `Stacks.step`
what a call does to it. A table `Represents` a map when the entries of each key, newest first, are
the stack of the key and every entry lies in the bucket of its key, and every call keeps this
(`represents_call`), however the keys collide.
-/

namespace Qcvm.Stdlib

open Lib

/-! ## The last match in a list -/

section Last

variable {α : Type} {p q : α → Bool} {l pre post : List α} {a : α} {i : Nat}

/-- Positions that match, newest first, are the matching elements, newest first. -/
lemma matching_zipIdx : ((l.zipIdx.reverse.filter fun e => p e.1).map Prod.fst) =
    l.reverse.filter p := by
  induction l using List.reverseRecOn with
  | nil => rfl
  | append_singleton l a ih =>
    rw [List.zipIdx_append, List.reverse_append, List.reverse_append, List.filter_append,
      List.filter_append, List.map_append, ih]
    congr 1
    cases match_ : p a with
    | true => simp [match_]
    | false => simp [match_]

/-- The newest match splits the list: nothing after it matches. -/
lemma last_match (h : (l.zipIdx.reverse.filter fun e => p e.1).head? = some (a, i)) :
    ∃ pre post, l = pre ++ a :: post ∧ pre.length = i ∧ p a = true ∧ ∀ b ∈ post, p b = false := by
  induction l using List.reverseRecOn with
  | nil => cases h
  | append_singleton l b ih =>
    rw [List.zipIdx_append, List.reverse_append, List.filter_append] at h
    cases match_ : p b with
    | true =>
      simp only [List.zipIdx_singleton, Nat.zero_add, List.reverse_singleton, List.filter_cons,
        match_, if_true, List.filter_nil, List.singleton_append, List.head?_cons, Option.some.injEq,
        Prod.mk.injEq] at h
      obtain ⟨rfl, rfl⟩ := h
      exact ⟨l, [], rfl, rfl, match_, fun b mem => absurd mem List.not_mem_nil⟩
    | false =>
      simp only [List.zipIdx_singleton, Nat.zero_add, List.reverse_singleton, List.filter_cons,
        match_, Bool.false_eq_true, if_false, List.filter_nil, List.nil_append] at h
      obtain ⟨pre, post, rfl, length, matches_, none⟩ := ih h
      refine ⟨pre, post ++ [b], by simp, length, matches_, fun c mem => ?_⟩
      cases List.mem_append.mp mem with
      | inl before => exact none c before
      | inr last =>
        rw [List.mem_singleton.mp last]
        exact match_

/-- Erasing at a split erases the entry there. -/
lemma eraseIdx_split : (pre ++ a :: post).eraseIdx pre.length = pre ++ post := by
  rw [List.eraseIdx_append_of_length_le le_rfl, Nat.sub_self]
  rfl

/-- Erasing the newest match takes the first of the matches away. -/
lemma reverse_filter_erase (here : p a = true) (none : ∀ b ∈ post, p b = false) :
    (pre ++ a :: post).reverse.filter p = a :: (pre ++ post).reverse.filter p := by
  have nothing : post.reverse.filter p = [] := by
    rw [List.filter_eq_nil_iff]
    intro b mem
    simp [none b (List.mem_reverse.mp mem)]
  simp only [List.reverse_append, List.reverse_cons, List.filter_append, nothing, List.nil_append,
    List.filter_cons, here, if_true, List.filter_nil, List.singleton_append]

/-- Erasing an element keeps the matches of a test it fails. -/
lemma reverse_filter_erase_other (here : p a = false) :
    (pre ++ post).reverse.filter p = (pre ++ a :: post).reverse.filter p := by
  simp only [List.reverse_append, List.reverse_cons, List.filter_append, List.filter_cons, here,
    Bool.false_eq_true, if_false, List.filter_nil, List.append_nil]

end Last

/-! ## The entries of a key -/

namespace Table

variable {t : Table} {key other : List Byte} {e : Entry} {pos : Nat × Nat}

/-- The entries of a key, newest first. -/
def entriesOf (t : Table) (key : List Byte) : List Entry :=
  (t.bucket key).reverse.filter fun e => e.key = key

/-- Every entry lies in the bucket of its key, and none has the empty key. -/
structure Placed (t : Table) : Prop where
  buckets : 0 < t.buckets.length
  entries : ∀ (i : Nat) (b : List Entry), t.buckets[i]? = some b → ∀ e ∈ b,
    t.bucketOf e.key = i ∧ e.key ≠ []

/-- An entry of a key's bucket is at its position. -/
lemma entry_of_mem {i : Nat} (h : (e, i) ∈ (t.bucket key).zipIdx) :
    t.entry (t.bucketOf key, i) = some e := by
  have here := List.mem_zipIdx_iff_getElem?.mp h
  unfold bucket at here
  unfold entry
  cases bucket : t.buckets[t.bucketOf key]? with
  | none =>
    rw [bucket] at here
    cases here
  | some b =>
    rw [bucket] at here
    exact here

/-- The positions of a key are those of its entries, in order. -/
lemma map_positions : (t.positions key).map t.entry = (t.entriesOf key).map some := by
  unfold positions entriesOf
  rw [← matching_zipIdx (p := fun e : Entry => decide (e.key = key)), List.map_map, List.map_map]
  apply List.map_congr_left
  rintro ⟨e, i⟩ mem
  exact entry_of_mem (List.mem_reverse.mp (List.mem_filter.mp mem).1)

/-- The entry at the first position of a key is its first entry. -/
lemma bind_head_positions : (t.positions key).head?.bind t.entry = (t.entriesOf key).head? := by
  have same := congrArg List.head? (@map_positions t key)
  rw [List.head?_map, List.head?_map] at same
  cases first : (t.positions key).head? with
  | none =>
    rw [first] at same
    cases none : (t.entriesOf key).head? with
    | none => rfl
    | some e =>
      rw [none] at same
      cases same
  | some pos =>
    rw [first] at same
    cases some_ : (t.entriesOf key).head? with
    | none =>
      rw [some_] at same
      cases same
    | some e =>
      rw [some_] at same
      exact Option.some.inj same

/-- What the newest position of a key says of its bucket. -/
lemma head_positions (h : (t.positions key).head? = some pos) : ∃ pre e post,
    pos = (t.bucketOf key, pre.length) ∧ t.bucket key = pre ++ e :: post ∧ e.key = key ∧
      ∀ x ∈ post, x.key ≠ key := by
  unfold positions at h
  rw [List.head?_map] at h
  obtain ⟨⟨e, i⟩, first, rfl⟩ := Option.map_eq_some_iff.mp h
  obtain ⟨pre, post, split, rfl, same, none⟩ := last_match (p := fun e : Entry => decide (e.key = key)) first
  exact ⟨pre, e, post, rfl, split, of_decide_eq_true same,
    fun x mem => of_decide_eq_false (none x mem)⟩

section Modify

variable {f : List Entry → List Entry} {t' : Table}

/-- A key's bucket depends on the number of buckets alone. -/
lemma bucketOf_congr (length : t'.buckets.length = t.buckets.length) :
    t'.bucketOf key = t.bucketOf key := by
  unfold bucketOf
  rw [length]

/-- Changing the bucket of a key changes what the keys of that bucket see. -/
lemma bucket_modify (h : t'.buckets = t.buckets.modify (t.bucketOf key) f)
    (inside : t.bucketOf key < t.buckets.length) :
    t'.bucket other = if t.bucketOf other = t.bucketOf key then f (t.bucket other)
      else t.bucket other := by
  have length : t'.buckets.length = t.buckets.length := by rw [h, List.length_modify]
  unfold bucket
  rw [bucketOf_congr length, h, List.getElem?_modify]
  split_ifs with same back
  · rw [← same, List.getElem?_eq_getElem inside]
    rfl
  · exact absurd same.symm back
  · exact absurd (by assumption) (Ne.symm same)
  · simp

/-- A change of one bucket that adds only its own entries keeps entries placed. -/
lemma placed_modify (placed : t.Placed) (h : t'.buckets = t.buckets.modify (t.bucketOf key) f)
    (keeps : ∀ (b : List Entry), ∀ e ∈ f b, e ∈ b ∨ t.bucketOf e.key = t.bucketOf key ∧ e.key ≠ []) :
    t'.Placed := by
  have length : t'.buckets.length = t.buckets.length := by rw [h, List.length_modify]
  refine ⟨length ▸ placed.buckets, fun i b here e mem => ?_⟩
  rw [bucketOf_congr length]
  by_cases same : t.bucketOf key = i
  · simp only [h, List.getElem?_modify, same, if_true, Option.map_eq_map] at here
    obtain ⟨old, there, rfl⟩ := Option.map_eq_some_iff.mp here
    cases keeps old e mem with
    | inl stayed => exact placed.entries i old there e stayed
    | inr new => exact ⟨new.1.trans same, new.2⟩
  · simp only [h, List.getElem?_modify, same, if_false, Option.map_eq_map, Option.map_id_fun',
      id_eq] at here
    exact placed.entries i b here e mem

end Modify

/-- A key's bucket is the one at its index. -/
lemma bucket_eq (inside : t.bucketOf key < t.buckets.length) :
    t.buckets[t.bucketOf key]? = some (t.bucket key) := by
  unfold bucket
  rw [List.getElem?_eq_getElem inside]
  rfl

/-- The first entry of a key is where its bucket splits. -/
lemma entry_head {pre post : List Entry} (inside : t.bucketOf key < t.buckets.length)
    (split : t.bucket key = pre ++ e :: post) :
    t.entry (t.bucketOf key, pre.length) = some e := by
  unfold entry
  rw [bucket_eq inside, split]
  simp

/-- Removing the newest entry of a key pops it and touches no other key. -/
lemma entriesOf_remove (placed : t.Placed) (h : (t.positions key).head? = some pos) :
    (t.remove pos).Placed ∧ (t.remove pos).entriesOf key = (t.entriesOf key).tail ∧
      ∀ other, other ≠ key → (t.remove pos).entriesOf other = t.entriesOf other := by
  obtain ⟨pre, e, post, rfl, split, same, none⟩ := head_positions h
  have inside := @bucketOf_lt t key placed.buckets
  have removed := remove_some (entry_head inside split)
  have modified : (t.remove (t.bucketOf key, pre.length)).buckets =
      t.buckets.modify (t.bucketOf key) fun b => b.eraseIdx pre.length := by rw [removed]
  have erased : (t.bucket key).eraseIdx pre.length = pre ++ post := by rw [split, eraseIdx_split]
  refine ⟨placed_modify placed modified fun b e mem => Or.inl (List.mem_of_mem_eraseIdx mem), ?_,
    fun other different => ?_⟩
  · unfold entriesOf
    have others : ∀ b ∈ post, decide (b.key = key) = false :=
      fun b mem => decide_eq_false (none b mem)
    rw [bucket_modify modified inside, if_pos rfl, erased, split,
      reverse_filter_erase (p := fun e : Entry => decide (e.key = key)) (decide_eq_true same) others]
    rfl
  · unfold entriesOf
    rw [bucket_modify modified inside]
    split_ifs with shared
    · have alike : t.bucket other = t.bucket key := by
        unfold bucket
        rw [shared]
      rw [alike, erased, split]
      refine reverse_filter_erase_other (p := fun e : Entry => decide (e.key = other))
        (decide_eq_false ?_)
      rw [same]
      exact different.symm
    · rfl

/-- Pushing an entry puts it on top of its key and touches no other key. -/
lemma entriesOf_push (placed : t.Placed) (nonempty : e.key ≠ []) :
    (t.push e).Placed ∧ (t.push e).entriesOf e.key = e :: t.entriesOf e.key ∧
      ∀ other, other ≠ e.key → (t.push e).entriesOf other = t.entriesOf other := by
  have inside := @bucketOf_lt t e.key placed.buckets
  have modified : (t.push e).buckets = t.buckets.modify (t.bucketOf e.key) (· ++ [e]) := by
    unfold push
    rw [if_pos inside]
  refine ⟨placed_modify placed modified fun b x mem => ?_, ?_, fun other different => ?_⟩
  · cases List.mem_append.mp mem with
    | inl old => exact Or.inl old
    | inr new =>
      rw [List.mem_singleton.mp new]
      exact Or.inr ⟨rfl, nonempty⟩
  · unfold entriesOf
    rw [bucket_modify modified inside, if_pos rfl, List.reverse_append, List.reverse_singleton,
      List.singleton_append, List.filter_cons, if_pos (decide_eq_true rfl)]
  · unfold entriesOf
    rw [bucket_modify modified inside]
    split_ifs
    · rw [List.reverse_append, List.reverse_singleton, List.singleton_append, List.filter_cons,
        if_neg]
      rw [decide_eq_true_eq]
      exact different.symm
    · rfl

/-- A table has as many entries of a key in all as the key's bucket has. -/
lemma filter_all (placed : t.Placed) : t.all.filter (fun e => e.key = key) = t.entriesOf key := by
  have inside := @bucketOf_lt t key placed.buckets
  -- the buckets from `n` on have the key's entries only if its bucket is among them
  have from_ (n : Nat) (within : n ≤ t.buckets.length) :
      ((t.buckets.drop n).flatMap List.reverse).filter (fun e => e.key = key) =
        if n ≤ t.bucketOf key then t.entriesOf key else [] := by
    induction within using Nat.decreasingInduction with
    | self =>
      rw [List.drop_length, if_neg (Nat.not_le.mpr inside)]
      rfl
    | of_succ n bound ih =>
      rw [List.drop_eq_getElem_cons bound, List.flatMap_cons, List.filter_append, ih]
      have here := List.getElem?_eq_getElem bound
      by_cases same : n = t.bucketOf key
      · subst same
        rw [if_neg (Nat.not_succ_le_self _), if_pos le_rfl, List.append_nil]
        rw [bucket_eq bound] at here
        rw [← Option.some.inj here]
        rfl
      · have nothing : t.buckets[n].reverse.filter (fun e => e.key = key) = [] := by
          rw [List.filter_eq_nil_iff]
          intro e mem
          rw [decide_eq_true_eq]
          rintro rfl
          exact same (placed.entries n _ here e (List.mem_reverse.mp mem)).1.symm
        rw [nothing, List.nil_append]
        by_cases before : n ≤ t.bucketOf key
        · rw [if_pos before, if_pos (Nat.succ_le_of_lt (Nat.lt_of_le_of_ne before same))]
        · rw [if_neg before, if_neg fun later => before (Nat.le_of_succ_le later)]
  have whole := from_ 0 (Nat.zero_le _)
  rwa [if_pos (Nat.zero_le _), List.drop_zero] at whole

/-- Enumerating a table shows each key once per entry. -/
lemma count_all (placed : t.Placed) :
    (t.all.map Entry.key).count key = (t.entriesOf key).length := by
  rw [← filter_all placed, List.count, List.countP_map, List.countP_eq_length_filter]
  congr 2
  funext e
  exact Bool.beq_eq_decide_eq _ _

/-- A new table has no entries to place. -/
lemma placed_new (n : Nat) (ty : Word) : (Table.new n ty).Placed := by
  refine ⟨(new_exact n ty).buckets, fun i b here e mem => ?_⟩
  rw [new, List.getElem?_replicate] at here
  split_ifs at here
  cases here
  cases mem

/-- A new table has no entries for a key. -/
lemma entriesOf_new {n : Nat} {ty : Word} : (Table.new n ty).entriesOf key = [] := by
  unfold entriesOf bucket new
  rw [List.getElem?_replicate]
  split_ifs
  · rfl
  · rfl

end Table

/-! ## Maps of stacks -/

/-- A map from keys to stacks of typed values, newest first. -/
abbrev Stacks := List Byte → List (Word × Value)

/-- The calls that use one table. -/
inductive TableCall where
  | add | delete | get | getkey

/-- The builtin of a call. -/
def TableCall.builtin : TableCall → Builtin
  | .add => .hashAdd
  | .delete => .hashDelete
  | .get => .hashGet
  | .getkey => .hashGetkey

namespace Stacks

/-- The empty map. -/
def empty : Stacks := fun _ => []

/-- The type that flags give a value: their low byte, or the table's default. -/
def typed (defaultTy flags : Word) : Word :=
  if flags &&& 0xFF = 0 then defaultTy else flags &&& 0xFF

/-- What a call does to the map: an add pushes, after popping the newest pair of the key unless
`HASH_ADD` is set without `HASH_REPLACE`, and a delete pops. -/
def step (defaultTy : Word) (m : Stacks) (call : TableCall) (a : Args) : Stacks :=
  match call with
  | .add =>
    if a.str 1 = [] then m
    else
      let flags := a.optInt 3 0
      let value := Containers.storedValue (typed defaultTy flags) (a.str 2) (a.raw 2)
      let below := if flags &&& hashAddFlag ≠ 0 ∧ flags &&& hashReplace = 0 then m (a.str 1)
        else (m (a.str 1)).tail
      Function.update m (a.str 1) ((typed defaultTy flags, value) :: below)
  | .delete => Function.update m (a.str 1) (m (a.str 1)).tail
  | .get => m
  | .getkey => m

/-- The map after a sequence of calls. -/
def run (defaultTy : Word) (m : Stacks) (calls : List (TableCall × Args)) : Stacks :=
  calls.foldl (fun m call => step defaultTy m call.1 call.2) m

end Stacks

/-- A typed value as the map has it. -/
def Entry.pair (e : Entry) : Word × Value := (e.ty, e.value)

/-- The entries of each key, newest first, are its stack. -/
structure Table.Represents (t : Table) (m : Stacks) : Prop where
  placed : t.Placed
  entries : ∀ key, (t.entriesOf key).map Entry.pair = m key

namespace Containers

variable {cfg : Config} {c : Containers} {a : Args} {handle : Word} {t t' : Table} {m : Stacks}

/-- The handle of a table that is set names it. -/
lemma table_setTable (here : c.table handle = some t) :
    (c.setTable handle t').table handle = some t' := by
  unfold table at here ⊢
  unfold setTable
  split_ifs at here ⊢
  · rfl
  · obtain ⟨i, slot, there⟩ := Option.bind_eq_some_iff.mp here
    simp only [slot, Option.bind_some]
    rw [Slots.get_eq_some]
    exact List.getElem?_set_self (Slots.lt_of_get there)

/-- Recharging bytes keeps the tables. -/
lemma table_of_recharge {old new : Nat} :
    (c.recharge cfg old new).2.table handle = c.table handle := by
  unfold recharge charge release
  split_ifs
  · rfl
  · rfl
  · rfl

/-- A handle that names a table is accepted. -/
lemma tableArg_of_table (here : c.table handle = some t) :
    c.tableArg handle = some (c.touch handle) ∧ (c.touch handle).table handle = some t := by
  refine ⟨?_, table_touch.trans here⟩
  unfold tableArg
  rw [here]
  rfl

/-- The table an accepted add leaves. -/
lemma represents_push (h : t.Represents m) (a : Args) (nonempty : a.str 1 ≠ []) :
    Table.Represents (((replaced t (a.str 1) (a.optInt 3 0)).elim t t.remove).push
      ⟨a.str 1, storedTy t (a.optInt 3 0),
        storedValue (storedTy t (a.optInt 3 0)) (a.str 2) (a.raw 2)⟩)
      (m.step t.defaultTy .add a) := by
  generalize flags_ : a.optInt 3 0 = flags
  generalize known : a.str 1 = key at nonempty
  -- the table without the entry that is replaced
  have below : ((replaced t key flags).elim t t.remove).Placed ∧
      (((replaced t key flags).elim t t.remove).entriesOf key).map Entry.pair =
        (if flags &&& hashAddFlag ≠ 0 ∧ flags &&& hashReplace = 0 then m key else (m key).tail) ∧
      ∀ other, other ≠ key →
        (((replaced t key flags).elim t t.remove).entriesOf other).map Entry.pair = m other := by
    by_cases again : flags &&& hashAddFlag ≠ 0 ∧ flags &&& hashReplace = 0
    · have kept : replaced t key flags = none := by
        unfold replaced replaces
        rw [if_neg]
        simpa using again
      rw [kept, if_pos again]
      exact ⟨h.placed, h.entries key, fun other _ => h.entries other⟩
    · have first : replaced t key flags = (t.positions key).head? := by
        unfold replaced replaces
        rw [if_pos]
        rw [not_and_or, not_ne_iff] at again
        simpa using again
      rw [first, if_neg again, ← h.entries key, ← List.map_tail]
      cases newest : (t.positions key).head? with
      | none =>
        have empty := @Table.bind_head_positions t key
        rw [newest] at empty
        have nothing : t.entriesOf key = [] := List.head?_eq_none_iff.mp empty.symm
        refine ⟨h.placed, ?_, fun other _ => h.entries other⟩
        rw [Option.elim_none, nothing]
        rfl
      | some pos =>
        obtain ⟨placed, popped, others⟩ := Table.entriesOf_remove h.placed newest
        refine ⟨placed, ?_, fun other different => ?_⟩
        · rw [Option.elim_some, popped]
        · rw [Option.elim_some, others other different, h.entries other]
  obtain ⟨placed, top, rest⟩ := below
  obtain ⟨placed', pushed, others⟩ := Table.entriesOf_push (e := ⟨key, storedTy t flags,
    storedValue (storedTy t flags) (a.str 2) (a.raw 2)⟩) placed nonempty
  refine ⟨placed', fun other => ?_⟩
  simp only [Stacks.step, known, flags_, if_neg nonempty]
  by_cases same : other = key
  · subst same
    rw [Function.update_self, pushed, List.map_cons, top]
    rfl
  · rw [Function.update_of_ne same, others other same, rest other same]

@[simp] lemma defaultTy_remove {pos : Nat × Nat} : (t.remove pos).defaultTy = t.defaultTy := by
  unfold Table.remove
  split
  · rfl
  · rfl

@[simp] lemma defaultTy_push {e : Entry} : (t.push e).defaultTy = t.defaultTy := by
  unfold Table.push
  split
  · rfl
  · rfl

/-- The table of `handle` represents `m`, with its default type. -/
def Shows (c : Containers) (handle : Word) (defaultTy : Word) (m : Stacks) : Prop :=
  ∃ t, c.table handle = some t ∧ t.defaultTy = defaultTy ∧ t.Represents m

variable {ty : Word}

/-- An add that is not refused pushes. -/
lemma shows_hashAdd (h : c.Shows (a.int 0) ty m) (accepted : (c.hashAdd cfg a).warnings = []) :
    (c.hashAdd cfg a).state.Shows (a.int 0) ty (m.step ty .add a) := by
  obtain ⟨t, here, rfl, represents⟩ := h
  obtain ⟨valid, touched⟩ := tableArg_of_table here
  unfold hashAdd at accepted ⊢
  simp only [valid, touched] at accepted ⊢
  split_ifs at accepted ⊢ with empty ok
  · refine ⟨t, touched, rfl, ?_⟩
    simp only [Stacks.step, empty, if_true]
    exact represents
  · have again := (@table_of_recharge cfg (c.touch (a.int 0)) (a.int 0)
      (((replaced t (a.str 1) (a.optInt 3 0)).bind t.entry).elim 0 Entry.bytes)
      (entryBytes (a.str 1)
        (storedValue (storedTy t (a.optInt 3 0)) (a.str 2) (a.raw 2)))).trans touched
    simp only [again]
    refine ⟨_, table_setTable again, ?_, represents_push represents a empty⟩
    rw [defaultTy_push]
    cases replaced t (a.str 1) (a.optInt 3 0) with
    | none => rfl
    | some pos => exact defaultTy_remove

/-- What `hash_delete` finds. -/
lemma newest_entry : ((t.positions (a.str 1)).head?.bind fun pos =>
      (t.entry pos).map fun e => (pos, e)) = none ∧ t.entriesOf (a.str 1) = [] ∨
    ∃ pos e rest, ((t.positions (a.str 1)).head?.bind fun pos =>
        (t.entry pos).map fun e => (pos, e)) = some (pos, e) ∧
      (t.positions (a.str 1)).head? = some pos ∧ t.entriesOf (a.str 1) = e :: rest := by
  have head := @Table.bind_head_positions t (a.str 1)
  cases newest : (t.positions (a.str 1)).head? with
  | none =>
    rw [newest] at head
    exact Or.inl ⟨rfl, List.head?_eq_none_iff.mp head.symm⟩
  | some pos =>
    rw [newest] at head
    right
    obtain ⟨e, here, -⟩ := positions_entry (List.mem_of_head? newest)
    rw [Option.bind_some, here] at head
    cases entries : t.entriesOf (a.str 1) with
    | nil =>
      rw [entries] at head
      cases head
    | cons first rest =>
      rw [entries] at head
      cases head
      refine ⟨pos, e, rest, ?_, rfl, rfl⟩
      rw [Option.bind_some, here]
      rfl

/-- A delete pops and returns the newest value. -/
lemma shows_hashDelete (h : c.Shows (a.int 0) ty m) :
    (c.hashDelete cfg a).state.Shows (a.int 0) ty (m.step ty .delete a) ∧
      (c.hashDelete cfg a).ret =
        (m (a.str 1)).head?.elim (.raw zero) fun pair => retValue pair.2 := by
  obtain ⟨t, here, rfl, represents⟩ := h
  obtain ⟨valid, touched⟩ := tableArg_of_table here
  have stack := represents.entries (a.str 1)
  unfold hashDelete
  simp only [valid, touched]
  cases newest_entry (t := t) (a := a) with
  | inl none =>
    obtain ⟨none, nothing⟩ := none
    rw [nothing] at stack
    simp only [none, ← stack]
    refine ⟨⟨t, touched, rfl, represents.placed, fun key => ?_⟩, rfl⟩
    simp only [Stacks.step]
    by_cases same : key = a.str 1
    · rw [same, Function.update_self, ← stack, nothing]
      rfl
    · rw [Function.update_of_ne same, represents.entries key]
  | inr some_ =>
    obtain ⟨pos, e, rest, found, newest, entries⟩ := some_
    obtain ⟨placed, popped, others⟩ := Table.entriesOf_remove represents.placed newest
    rw [entries] at stack
    simp only [found, ← stack]
    refine ⟨⟨t.remove pos, table_setTable touched, defaultTy_remove, placed, fun key => ?_⟩, rfl⟩
    simp only [Stacks.step]
    by_cases same : key = a.str 1
    · rw [same, Function.update_self, ← stack, popped, entries]
      rfl
    · rw [Function.update_of_ne same, others key same, represents.entries key]

/-- `hash_get` finds the value of an index among the values of the required type. -/
lemma found_eq {required : Word} {skip : Nat} : found t (a.str 1) required skip =
    ((t.entriesOf (a.str 1)).filter fun e => decide (required = 0) || decide (e.ty = required))[skip]? := by
  unfold found
  have through (positions : List (Nat × Nat)) (entries : List Entry)
      (same : positions.map t.entry = entries.map some) :
      ((positions.filter fun pos => decide (required = 0) ||
        (t.entry pos).any fun e => decide (e.ty = required)).map t.entry) =
      (entries.filter fun e => decide (required = 0) || decide (e.ty = required)).map some := by
    induction positions generalizing entries with
    | nil =>
      cases entries with
      | nil => rfl
      | cons e entries => cases same
    | cons pos positions ih =>
      cases entries with
      | nil => cases same
      | cons e entries =>
        obtain ⟨head, tail⟩ := List.cons.inj same
        have rest := ih entries tail
        simp only [List.filter_cons, head, Option.any_some]
        split_ifs
        · rw [List.map_cons, List.map_cons, head, rest]
        · exact rest
  have read := congrArg (fun l => l[skip]?) (through _ _ (@Table.map_positions t
    (a.str 1)))
  simp only [List.getElem?_map] at read
  generalize (t.positions (a.str 1)).filter _ = positions at read ⊢
  cases here : positions[skip]? with
  | none =>
    rw [here] at read
    exact (Option.map_eq_none_iff.mp read.symm).symm
  | some pos =>
    rw [here] at read
    obtain ⟨e, there, same⟩ := Option.map_eq_some_iff.mp read.symm
    rw [there, Option.bind_some, ← same]

/-- A get returns the value of an index among those of the required type, or the default. -/
lemma shows_hashGet (h : c.Shows (a.int 0) ty m) :
    (c.hashGet cfg a).state.Shows (a.int 0) ty m ∧
      (c.hashGet cfg a).ret = ((m (a.str 1)).filter fun pair =>
          decide (a.optInt 3 0 = 0) || decide (pair.1 = a.optInt 3 0))[(index (a.optInt 4 0)).getD 0]?.elim
        (.raw (if 2 < a.argc then a.raw 2 else zero)) fun pair => retValue pair.2 := by
  obtain ⟨t, here, same, represents⟩ := h
  obtain ⟨valid, touched⟩ := tableArg_of_table here
  unfold hashGet
  simp only [valid, touched, Option.bind_some, found_eq]
  rw [← represents.entries, List.filter_map, List.getElem?_map]
  have tests : ((fun pair : Word × Value => decide (a.optInt 3 0 = 0) ||
      decide (pair.1 = a.optInt 3 0)) ∘ Entry.pair) =
      fun e => decide (a.optInt 3 0 = 0) || decide (e.ty = a.optInt 3 0) := rfl
  rw [tests]
  split
  next e there =>
    refine ⟨⟨t, touched, same, represents⟩, ?_⟩
    rw [there]
    rfl
  next nothing =>
    refine ⟨⟨t, touched, same, represents⟩, ?_⟩
    rw [nothing]
    rfl

/-- The keys in enumeration order: each as often as its stack is high. -/
lemma shows_hashGetkey (h : c.Shows handle ty m) : ∃ keys : List (List Byte),
    (∀ a, a.int 0 = handle → (c.hashGetkey cfg a).state.Shows handle ty m ∧
      (c.hashGetkey cfg a).ret = ((index (a.int 1)).bind fun i => keys[i]?).elim (.raw zero) .string) ∧
    ∀ key, keys.count key = (m key).length := by
  obtain ⟨t, here, same, represents⟩ := h
  refine ⟨t.all.map Entry.key, ?_, fun key => ?_⟩
  · rintro a rfl
    obtain ⟨valid, touched⟩ := tableArg_of_table here
    unfold hashGetkey
    simp only [valid, touched, Option.bind_some]
    cases number : index (a.int 1) with
    | none => exact ⟨⟨t, touched, same, represents⟩, rfl⟩
    | some i =>
      simp only [Option.bind_some, List.getElem?_map]
      cases entry : t.all[i]? with
      | none => exact ⟨⟨t, touched, same, represents⟩, rfl⟩
      | some e => exact ⟨⟨t, touched, same, represents⟩, rfl⟩
  · rw [Table.count_all represents.placed, ← represents.entries, List.length_map]

/-- Every call keeps the table showing the map. -/
lemma shows_call {call : TableCall} (h : c.Shows (a.int 0) ty m)
    (accepted : (c.call cfg call.builtin a).warnings = []) :
    (c.call cfg call.builtin a).state.Shows (a.int 0) ty (m.step ty call a) := by
  cases call with
  | add => exact shows_hashAdd h accepted
  | delete => exact (shows_hashDelete h).1
  | get => exact (shows_hashGet h).1
  | getkey =>
    obtain ⟨keys, read, -⟩ := @shows_hashGetkey cfg _ _ _ _ h
    exact (read a rfl).1

/-- The containers after a sequence of calls on a table. -/
def runTable (cfg : Config) (c : Containers) (calls : List (TableCall × Args)) : Containers :=
  c.run cfg (calls.map fun call => (call.1.builtin, call.2))

/-- No call of the sequence hits the storage limit, of which it would warn. -/
def Unlimited (cfg : Config) : Containers → List (TableCall × Args) → Prop
  | _, [] => True
  | c, call :: calls => (c.call cfg call.1.builtin call.2).warnings = [] ∧
      Unlimited cfg (c.call cfg call.1.builtin call.2).state calls

/-- A sequence of calls on one table shows the map the calls make. -/
lemma shows_runTable {calls : List (TableCall × Args)} (h : c.Shows handle ty m)
    (on : ∀ call ∈ calls, call.2.int 0 = handle) (unlimited : c.Unlimited cfg calls) :
    (c.runTable cfg calls).Shows handle ty (m.run ty calls) := by
  induction calls generalizing c m with
  | nil => exact h
  | cons call calls ih =>
    obtain rfl := on call List.mem_cons_self
    exact ih (shows_call h unlimited.1) (fun next mem => on next (List.mem_cons_of_mem _ mem))
      unlimited.2

/-- The empty key has no entries. -/
lemma Shows.nonempty (h : c.Shows handle ty m) : m [] = [] := by
  obtain ⟨t, -, -, represents⟩ := h
  rw [← represents.entries, List.map_eq_nil_iff, Table.entriesOf, List.filter_eq_nil_iff]
  intro e mem
  have inside := @Table.bucketOf_lt _ [] represents.placed.buckets
  have placed := represents.placed.entries _ _ (Table.bucket_eq inside) e (List.mem_reverse.mp mem)
  rw [decide_eq_true_eq]
  exact placed.2

/-- A new table of any number of buckets behaves as a map from keys to stacks of typed values.
After any sequence of calls on it that do not hit the storage limit, `hash_delete` returns the
newest value of a key, `hash_get` the value of an index among the values of the required type, or
the default, and `hash_getkey` enumerates the key of each stored pair once, then null; the empty key
has no values. What the calls do to the map is `Stacks.step`. -/
theorem table_refines (cfg : Config) (c : Containers) (handle : Word) (buckets : Nat) (ty : Word)
    (new : c.table handle = some (.new buckets ty)) (calls : List (TableCall × Args))
    (on : ∀ call ∈ calls, call.2.int 0 = handle) (unlimited : c.Unlimited cfg calls) :
    (∀ a, a.int 0 = handle → ((c.runTable cfg calls).hashDelete cfg a).ret =
      (Stacks.empty.run ty calls (a.str 1)).head?.elim (.raw zero) fun pair => retValue pair.2) ∧
    (∀ a i, a.int 0 = handle → index (a.optInt 4 0) = some i →
      ((c.runTable cfg calls).hashGet cfg a).ret =
        ((Stacks.empty.run ty calls (a.str 1)).filter fun pair =>
          decide (a.optInt 3 0 = 0) || decide (pair.1 = a.optInt 3 0))[i]?.elim
        (.raw (if 2 < a.argc then a.raw 2 else zero)) fun pair => retValue pair.2) ∧
    (∃ keys : List (List Byte),
      (∀ a i, a.int 0 = handle → index (a.int 1) = some i →
        ((c.runTable cfg calls).hashGetkey cfg a).ret = keys[i]?.elim (.raw zero) .string) ∧
      ∀ key, keys.count key = (Stacks.empty.run ty calls key).length) ∧
    Stacks.empty.run ty calls [] = [] := by
  have start : c.Shows handle ty .empty :=
    ⟨_, new, rfl, Table.placed_new buckets ty, fun key => by rw [Table.entriesOf_new]; rfl⟩
  have shows_ := shows_runTable start on unlimited
  obtain ⟨keys, read, count⟩ := @shows_hashGetkey cfg _ _ _ _ shows_
  refine ⟨?_, ?_, ⟨keys, ?_, count⟩, shows_.nonempty⟩
  · rintro a rfl
    exact (shows_hashDelete shows_).2
  · rintro a i rfl number
    have got := (@shows_hashGet cfg _ _ _ _ shows_).2
    rwa [number] at got
  · rintro a i same number
    have got := (read a same).2
    rwa [number] at got

/-- The arguments of a call on table 1 with this key and vector. -/
def entryArgs (key : Byte) (word : Word) : Args :=
  ⟨3, fun i => if i = 1 then [key] else [], fun _ => 1, fun _ => 0, fun _ => false, fun _ => (word, 0, 0)⟩

/-- A configuration with little room. -/
def small : Config := ⟨1, 4, 1, 4096, false⟩

/-- Containers with one table, which has one bucket. -/
def oneTable : Containers := ⟨[], [some (.new 1 evVector)], none, ⟨[], 0⟩, 24⟩

/-- Two keys share the only bucket; a value is added for each, one is replaced, and the other deleted. -/
def collidingCalls : List (TableCall × Args) :=
  [(.add, entryArgs 107 7), (.add, entryArgs 108 8), (.add, entryArgs 107 9), (.delete, entryArgs 108 0)]

/-- The key that is left has its newest value, and the deleted one none. -/
theorem table_refines_collision :
    ((oneTable.runTable small collidingCalls).hashDelete small (entryArgs 107 0)).ret = .raw (9, 0, 0) ∧
    ((oneTable.runTable small collidingCalls).hashDelete small (entryArgs 108 0)).ret = .raw zero := by
  obtain ⟨deletes, -⟩ := table_refines small oneTable 1 1 evVector rfl collidingCalls
    (by simp [collidingCalls, entryArgs]) (by
      unfold collidingCalls
      exact ⟨by decide, by decide, by decide, by decide, trivial⟩)
  exact ⟨(deletes (entryArgs 107 0) rfl).trans (by decide),
    (deletes (entryArgs 108 0) rfl).trans (by decide)⟩

end Containers

end Qcvm.Stdlib

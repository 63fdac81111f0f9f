import Qcvm.Stdlib.Coverage
import Qcvm.Stdlib.Builtins

/-!
# The container budget

`Accounted` is what holds of the containers between calls: the counter is the sum of what the
buffers, the tables and the token list hold, each container's own count is the cost of its
contents, and the counter is within the limit. Every builtin keeps it: a container changes by a
`recharge` of the difference, and `recharge_spec` says what an accepted and a refused one do.
-/

namespace Qcvm.Stdlib

open Lib

/-- The storage of a table's contents: its buckets and entries. -/
def Table.cost (t : Table) : Nat :=
  t.buckets.length * bucketBytes + (t.buckets.map fun b => (b.map Entry.bytes).sum).sum

/-- A table's count is the cost of its contents, and it has a bucket for each key. -/
structure Table.Exact (t : Table) : Prop where
  bytes : t.bytes = t.cost
  buckets : 0 < t.buckets.length

/-- A buffer's count is the cost of its contents, and it is no longer than the limit. -/
structure StrBuf.Exact (cfg : Config) (buf : StrBuf) : Prop where
  bytes : buf.bytes = cost buf.strings
  entries : buf.strings.length ≤ cfg.stringBufferEntries

namespace Containers

/-- The bytes of the `gamestate` table that are charged: all but its bucket array. -/
def gamestateBytes (c : Containers) : Nat := c.theGamestate.bytes - gamestateBuckets * bucketBytes

/-- The books balance. -/
structure Accounted (cfg : Config) (c : Containers) : Prop where
  total : c.containerBytes = Slots.weight StrBuf.bytes c.bufs + Slots.weight Table.bytes c.tables +
    c.gamestateBytes + c.tokens.bytes
  bufs : Slots.Each (StrBuf.Exact cfg) c.bufs
  tables : Slots.Each Table.Exact c.tables
  gamestate : c.theGamestate.Exact
  gamestateLength : c.theGamestate.buckets.length = gamestateBuckets
  tokens : c.tokens.bytes = listBytes c.tokens.list
  limit : c.containerBytes ≤ cfg.containerBytes

/-- The same contents and the same counters. -/
structure SameContents (c c' : Containers) : Prop where
  bufs : c'.bufs = c.bufs
  tables : c'.tables = c.tables
  gamestate : c'.theGamestate = c.theGamestate
  tokens : c'.tokens = c.tokens
  containerBytes : c'.containerBytes = c.containerBytes

end Containers

/-! ## The cost of a container -/

namespace StrBuf

variable {cfg : Config} {buf : StrBuf} {i : Nat} {s : List Byte}

/-- A buffer grows to the entry it is to hold, and no further. -/
@[simp] lemma length_grown : (buf.grown i).length = buf.strings.length + (i + 1 - buf.strings.length) := by
  simp [grown]

/-- A buffer grown to hold an entry has a place for it. -/
lemma lt_grown : i < (buf.grown i).length := by
  rw [length_grown]
  omega

/-- Unset entries weigh nothing. -/
lemma weight_replicate_none {f : List Byte → Nat} {n : Nat} :
    Slots.weight f (List.replicate n none) = 0 := by
  induction n with
  | zero => rfl
  | succ n ih =>
    rw [List.replicate_succ, Slots.weight_cons, ih]
    rfl

/-- Growing a buffer keeps the weight of its entries. -/
lemma weight_grown {f : List Byte → Nat} : Slots.weight f (buf.grown i) = Slots.weight f buf.strings := by
  rw [grown, Slots.weight_append, weight_replicate_none, Nat.add_zero]

/-- Growing a buffer adds holes only. -/
lemma get_grown : Slots.get (buf.grown i) i = Slots.get buf.strings i := by
  unfold Slots.get grown
  rw [List.getElem?_append]
  split_ifs with inside
  · rfl
  · rw [List.getElem?_eq_none_iff.mpr (Nat.not_lt.mp inside), List.getElem?_replicate]
    split_ifs
    · rfl
    · rfl

/-- Setting an entry costs what was charged for it. -/
lemma set_bytes (exact_ : buf.bytes = cost buf.strings) :
    (buf.set i s).bytes = cost (buf.set i s).strings := by
  have moved := Slots.weight_set (f := List.length) (o := some s) (@lt_grown buf i)
  rw [get_grown, weight_grown] at moved
  simp only [set, bytesAfterSet, cost, List.length_set, length_grown, exact_, Option.elim_some]
    at moved ⊢
  rw [Nat.add_mul]
  omega

/-- Freeing an entry gives back what it held. -/
lemma free_bytes (exact_ : buf.bytes = cost buf.strings) :
    (buf.free i).bytes = cost (buf.free i).strings ∧ (buf.free i).bytes + buf.freed i = buf.bytes := by
  by_cases inside : i < buf.strings.length
  · have moved := Slots.weight_set (f := List.length) (o := none) inside
    simp only [free, freed, cost, List.length_set, exact_, Option.elim_none, Nat.add_zero] at moved ⊢
    constructor
    · omega
    · omega
  · have hole : Slots.get buf.strings i = none := by
      simp [Slots.get, List.getElem?_eq_none_iff.mpr (Nat.not_lt.mp inside)]
    simp only [free, freed, hole, Option.elim_none, Nat.sub_zero, Nat.add_zero, and_true]
    rw [List.set_eq_of_length_le (Nat.not_lt.mp inside)]
    exact exact_

/-- Setting an entry below the limit keeps the count exact. -/
lemma Exact.set (h : Exact cfg buf) (room : i < cfg.stringBufferEntries) : Exact cfg (buf.set i s) := by
  refine ⟨set_bytes h.bytes, ?_⟩
  have before := h.entries
  simp only [StrBuf.set, List.length_set, length_grown]
  omega

/-- Freeing an entry keeps the count exact. -/
lemma Exact.free (h : Exact cfg buf) : Exact cfg (buf.free i) := by
  refine ⟨(free_bytes h.bytes).1, ?_⟩
  simpa [StrBuf.free] using h.entries

end StrBuf

namespace Table

variable {t : Table} {key : List Byte} {e : Entry} {pos : Nat × Nat}

/-- Changing one bucket changes the sum by what the bucket gains or loses. -/
lemma sum_modify {buckets : List (List Entry)} {i : Nat} {b : List Entry}
    {f : List Entry → List Entry} (h : buckets[i]? = some b) :
    ((buckets.modify i f).map fun b => (b.map Entry.bytes).sum).sum + (b.map Entry.bytes).sum =
      (buckets.map fun b => (b.map Entry.bytes).sum).sum + ((f b).map Entry.bytes).sum := by
  induction buckets generalizing i with
  | nil => cases h
  | cons head tail ih =>
    cases i with
    | zero =>
      cases h
      simp only [List.modify_zero_cons, List.map_cons, List.sum_cons]
      omega
    | succ i =>
      have rest := ih (i := i) h
      simp only [List.modify_succ_cons, List.map_cons, List.sum_cons]
      omega

/-- Erasing an entry takes its bytes from the sum of a bucket. -/
lemma sum_eraseIdx {b : List Entry} {i : Nat} (h : b[i]? = some e) :
    ((b.eraseIdx i).map Entry.bytes).sum + e.bytes = (b.map Entry.bytes).sum := by
  induction b generalizing i with
  | nil => cases h
  | cons head tail ih =>
    cases i with
    | zero =>
      cases h
      simp only [List.eraseIdx_zero, List.tail_cons, List.map_cons, List.sum_cons]
      omega
    | succ i =>
      have rest := ih (i := i) h
      simp only [List.eraseIdx_cons_succ, List.map_cons, List.sum_cons]
      omega

/-- Removing an entry keeps the number of buckets. -/
@[simp] lemma length_remove : (t.remove pos).buckets.length = t.buckets.length := by
  unfold remove
  split
  · simp
  · rfl

/-- Adding an entry keeps the number of buckets. -/
@[simp] lemma length_push : (t.push e).buckets.length = t.buckets.length := by
  unfold push
  split
  · simp
  · rfl

/-- Removing an entry that is there takes its bytes from the count. -/
lemma remove_some (h : t.entry pos = some e) : t.remove pos =
    { t with buckets := t.buckets.modify pos.1 fun b => b.eraseIdx pos.2, bytes := t.bytes - e.bytes } := by
  unfold remove
  rw [h]

/-- Removing an entry gives back what it held. -/
lemma remove_bytes (exact_ : t.Exact) (h : t.entry pos = some e) :
    (t.remove pos).Exact ∧ (t.remove pos).bytes + e.bytes = t.bytes := by
  obtain ⟨b, here, inside⟩ := Option.bind_eq_some_iff.mp h
  have changed := sum_modify (f := fun b => b.eraseIdx pos.2) here
  have lost := sum_eraseIdx inside
  have before := exact_.bytes
  rw [remove_some h]
  unfold cost at before
  constructor
  · constructor
    · simp only [cost, List.length_modify]
      omega
    · simpa using exact_.buckets
  · dsimp only
    omega

/-- A key's bucket is one of the buckets. -/
lemma bucketOf_lt (h : 0 < t.buckets.length) : t.bucketOf key < t.buckets.length := by
  unfold bucketOf
  rw [if_neg (Nat.pos_iff_ne_zero.mp h)]
  exact Nat.mod_lt _ h

/-- Pushing an entry costs what is charged for it. -/
lemma push_bytes (exact_ : t.Exact) : (t.push e).Exact ∧ (t.push e).bytes = t.bytes + e.bytes := by
  have inside := @bucketOf_lt t e.key exact_.buckets
  have changed := sum_modify (f := (· ++ [e])) (List.getElem?_eq_getElem inside)
  have before := exact_.bytes
  unfold push
  rw [if_pos inside]
  unfold cost at before
  constructor
  · constructor
    · simp only [List.map_append, List.sum_append, List.map_cons, List.map_nil, List.sum_cons,
        List.sum_nil] at changed
      simp only [cost, List.length_modify]
      omega
    · simpa using exact_.buckets
  · rfl

/-- Empty buckets hold no bytes. -/
lemma sum_replicate_nil (n : Nat) :
    ((List.replicate n ([] : List Entry)).map fun b => (b.map Entry.bytes).sum).sum = 0 := by
  induction n with
  | zero => rfl
  | succ n ih =>
    rw [List.replicate_succ, List.map_cons, List.sum_cons, ih]
    rfl

/-- The count of a new table is exact. -/
lemma new_exact (n : Nat) (ty : Word) : (Table.new n ty).Exact := by
  constructor
  · simp only [new, cost, List.length_replicate, sum_replicate_nil, Nat.add_zero]
  · simp only [new, List.length_replicate]
    exact Nat.lt_of_lt_of_le Nat.one_pos (Nat.le_max_right n 1)

end Table

/-! ## Charging -/

namespace Containers

variable {cfg : Config} {c c' : Containers} {n old new : Nat}

/-- An accepted charge adds to the counter, a refused one changes nothing. -/
lemma charge_spec : ((c.charge cfg n).1 = false → (c.charge cfg n).2 = c) ∧
    ((c.charge cfg n).1 = true →
      (c.charge cfg n).2 = { c with containerBytes := c.containerBytes + n } ∧
        c.containerBytes + n ≤ cfg.containerBytes) := by
  unfold charge
  split_ifs with full
  · exact ⟨fun _ => rfl, fun refused => False.elim refused⟩
  · exact ⟨fun accepted => False.elim accepted, fun _ => ⟨rfl, Nat.not_lt.mp full⟩⟩

/-- An accepted recharge replaces `old` by `new` in the counter, a refused one changes nothing. -/
lemma recharge_spec (held : old ≤ c.containerBytes) (limit : c.containerBytes ≤ cfg.containerBytes) :
    ((c.recharge cfg old new).1 = false → (c.recharge cfg old new).2 = c) ∧
      ((c.recharge cfg old new).1 = true → ∃ k,
        (c.recharge cfg old new).2 = { c with containerBytes := k } ∧
          k + old = c.containerBytes + new ∧ k ≤ cfg.containerBytes) := by
  unfold recharge
  split_ifs with grows
  · obtain ⟨refused, accepted⟩ := @charge_spec cfg c (new - old)
    refine ⟨refused, fun ok => ?_⟩
    obtain ⟨same, room⟩ := accepted ok
    exact ⟨_, same, by omega, room⟩
  · refine ⟨fun refused => False.elim refused, fun _ => ⟨_, rfl, ?_, ?_⟩⟩
    · omega
    · omega

/-- A recharge that does not grow is never refused. -/
lemma recharge_shrinks (less : new ≤ old) (limit : c.containerBytes ≤ cfg.containerBytes) :
    (c.recharge cfg old new).1 = true := by
  unfold recharge
  split_ifs with grows
  · unfold charge
    rw [if_neg (by omega)]
  · rfl

/-! ### The tables of a VM -/

section Tables

variable {handle : Word} {t t' : Table}

/-- Touching a handle keeps the `gamestate` table, made or not. -/
lemma theGamestate_touch : (c.touch handle).theGamestate = c.theGamestate := by
  unfold touch
  split
  · rfl
  · rfl

/-- Touching a handle changes no contents. -/
lemma touch_same : SameContents c (c.touch handle) := by
  have same := @theGamestate_touch c handle
  unfold touch at same ⊢
  split_ifs at same ⊢
  · exact ⟨rfl, rfl, same, rfl, rfl⟩
  · exact ⟨rfl, rfl, rfl, rfl, rfl⟩

/-- Containers have the same contents as themselves. -/
lemma SameContents.refl : SameContents c c := ⟨rfl, rfl, rfl, rfl, rfl⟩

/-- The same contents are accounted for alike. -/
lemma Accounted.same (h : Accounted cfg c) (same : SameContents c c') : Accounted cfg c' where
  total := by
    unfold gamestateBytes
    rw [same.containerBytes, same.bufs, same.tables, same.gamestate, same.tokens]
    exact h.total
  bufs := same.bufs ▸ h.bufs
  tables := same.tables ▸ h.tables
  gamestate := same.gamestate ▸ h.gamestate
  gamestateLength := same.gamestate ▸ h.gamestateLength
  tokens := same.tokens ▸ h.tokens
  limit := same.containerBytes ▸ h.limit

/-- The bucket array of the `gamestate` table is part of its bytes. -/
lemma Accounted.gamestate_bytes (h : Accounted cfg c) :
    c.gamestateBytes + gamestateBuckets * bucketBytes = c.theGamestate.bytes := by
  have exact_ := h.gamestate.bytes
  unfold Table.cost at exact_
  rw [h.gamestateLength] at exact_
  unfold gamestateBytes
  omega

/-- A handle that is accepted names a table, and is touched. -/
lemma tableArg_some (h : c.tableArg handle = some c') :
    c' = c.touch handle ∧ ∃ t, c.table handle = some t := by
  unfold tableArg at h
  split_ifs at h with valid
  cases h
  exact ⟨rfl, Option.isSome_iff_exists.mp valid⟩

/-- Touching a handle keeps the table it names. -/
lemma table_touch : (c.touch handle).table handle = c.table handle := by
  unfold table
  rw [theGamestate_touch]
  unfold touch
  split_ifs
  · rfl
  · rfl

/-- In balanced books every table's count is exact. -/
lemma Accounted.table_exact (h : Accounted cfg c) (here : c.table handle = some t) : t.Exact := by
  unfold table at here
  split_ifs at here
  · cases here
    exact h.gamestate
  · obtain ⟨i, -, there⟩ := Option.bind_eq_some_iff.mp here
    exact h.tables i t there

/-- Releasing bytes and setting a table do not depend on their order. -/
lemma release_setTable : (c.setTable handle t).release n =
    { c with containerBytes := c.containerBytes - n }.setTable handle t := by
  unfold setTable release
  split
  · rfl
  · split
    · rfl
    · rfl

/-- Writing a table back, with the counter moved by the difference. -/
lemma Accounted.setTable (h : Accounted cfg c) (here : c.table handle = some t)
    (exact_ : t'.Exact) (length : t'.buckets.length = t.buckets.length) {k : Nat}
    (moved : k + t.bytes = c.containerBytes + t'.bytes) (room : k ≤ cfg.containerBytes) :
    Accounted cfg ({ c with containerBytes := k }.setTable handle t') := by
  have sum := h.total
  unfold table at here
  unfold Containers.setTable
  split_ifs at here ⊢ with gamestate
  · cases here
    have before := h.gamestate_bytes
    have after : t'.bytes = gamestateBuckets * bucketBytes +
        (t'.buckets.map fun b => (b.map Entry.bytes).sum).sum := by
      rw [exact_.bytes, Table.cost, length, h.gamestateLength]
    refine ⟨?_, h.bufs, h.tables, exact_, length.trans h.gamestateLength, h.tokens, room⟩
    change k = _ + _ + (t'.bytes - gamestateBuckets * bucketBytes) + _
    dsimp only
    omega
  · obtain ⟨i, slot, there⟩ := Option.bind_eq_some_iff.mp here
    have weight := Slots.weight_replace (f := Table.bytes) (b := t') there
    rw [slot]
    refine ⟨?_, h.bufs, h.tables.set fun a same => Option.some.inj same ▸ exact_, h.gamestate,
      h.gamestateLength, h.tokens, room⟩
    change k = _ + _ + c.gamestateBytes + _
    dsimp only
    omega

/-- A table's bytes beyond its buckets are charged. -/
lemma Accounted.entry_le (h : Accounted cfg c) (here : c.table handle = some t) {e : Entry}
    {pos : Nat × Nat} (mem : t.entry pos = some e) : e.bytes ≤ c.containerBytes := by
  have sum := h.total
  have exact_ := h.table_exact here
  have lost := Table.remove_bytes exact_ mem
  unfold table at here
  split_ifs at here with gamestate
  · cases here
    have before := h.gamestate_bytes
    have kept := lost.1.bytes
    unfold Table.cost at kept
    rw [Table.length_remove, h.gamestateLength] at kept
    omega
  · obtain ⟨i, slot, there⟩ := Option.bind_eq_some_iff.mp here
    have weight := Slots.le_weight (f := Table.bytes) there
    omega

end Tables

/-! ### Buffers and tokens -/

section Buffers

variable {b i : Nat} {s : List Byte} {buf buf' : StrBuf}

/-- Writing a buffer back, with the counter moved by the difference. -/
lemma Accounted.writeBuf (h : Accounted cfg c) (here : Slots.get c.bufs b = some buf)
    (exact_ : buf'.Exact cfg) {k : Nat} (moved : k + buf.bytes = c.containerBytes + buf'.bytes)
    (room : k ≤ cfg.containerBytes) :
    Accounted cfg ({ c with containerBytes := k }.setBuf b buf') := by
  have sum := h.total
  have weight := Slots.weight_replace (f := StrBuf.bytes) (b := buf') here
  refine ⟨?_, h.bufs.set fun a same => Option.some.inj same ▸ exact_, h.tables, h.gamestate,
    h.gamestateLength, h.tokens, room⟩
  change k = _ + _ + c.gamestateBytes + _
  dsimp only [Containers.setBuf]
  omega

/-- In balanced books a buffer's bytes are among those of the containers. -/
lemma Accounted.buf_le (h : Accounted cfg c) (here : Slots.get c.bufs b = some buf) :
    buf.bytes ≤ c.containerBytes := by
  have sum := h.total
  have weight := Slots.le_weight (f := StrBuf.bytes) here
  omega

/-- A refused store changes nothing. -/
lemma Accounted.store_refused (h : Accounted cfg c) (refused : (c.store cfg b i s).1 = false) :
    (c.store cfg b i s).2.1 = c := by
  unfold Containers.store at refused ⊢
  cases here : Slots.get c.bufs b with
  | none => rfl
  | some buf =>
    have unchanged := (@recharge_spec _ _ _ (buf.bytesAfterSet i s.length) (h.buf_le here) h.limit).1
    simp only [here] at refused ⊢
    split_ifs at refused ⊢ with ok
    exact unchanged (Bool.eq_false_iff.mpr ok)

/-- A refused replacement changes nothing. -/
lemma Accounted.replace_refused (h : Accounted cfg c) (refused : (c.replace cfg b buf').1 = false) :
    (c.replace cfg b buf').2.1 = c := by
  unfold Containers.replace at refused ⊢
  cases here : Slots.get c.bufs b with
  | none => rfl
  | some buf =>
    have unchanged := (@recharge_spec _ _ _ buf'.bytes (h.buf_le here) h.limit).1
    simp only [here] at refused ⊢
    split_ifs at refused ⊢ with ok
    exact unchanged (Bool.eq_false_iff.mpr ok)

/-- Storing inside the entry limit keeps the books. -/
lemma Accounted.store (h : Accounted cfg c) (room : i < cfg.stringBufferEntries) :
    Accounted cfg (c.store cfg b i s).2.1 := by
  cases ok : (c.store cfg b i s).1 with
  | false => rwa [h.store_refused ok]
  | true =>
    unfold Containers.store at ok ⊢
    cases here : Slots.get c.bufs b with
    | none => exact h
    | some buf =>
      simp only [here] at ok ⊢
      split_ifs at ok ⊢ with charged
      obtain ⟨k, same, moved, limit⟩ := (recharge_spec (h.buf_le here) h.limit).2 charged
      rw [same]
      exact h.writeBuf here ((h.bufs b buf here).set room) moved limit

/-- Replacing a buffer by one inside the entry limit keeps the books. -/
lemma Accounted.replace (h : Accounted cfg c) (exact_ : buf'.Exact cfg) :
    Accounted cfg (c.replace cfg b buf').2.1 := by
  cases ok : (c.replace cfg b buf').1 with
  | false => rwa [h.replace_refused ok]
  | true =>
    unfold Containers.replace at ok ⊢
    cases here : Slots.get c.bufs b with
    | none => exact h
    | some buf =>
      simp only [here] at ok ⊢
      split_ifs at ok ⊢ with charged
      obtain ⟨k, same, moved, limit⟩ := (recharge_spec (h.buf_le here) h.limit).2 charged
      rw [same]
      exact h.writeBuf here exact_ moved limit

/-- The bytes of a token list are within what its tokens were charged. -/
lemma listBytes_le (list : List Token) : listBytes list ≤ Budget.total list := by
  induction list with
  | nil => exact le_rfl
  | cons t list ih =>
    simp only [listBytes, Budget.total_cons, Budget.cost, List.length_cons, List.map_cons,
      List.sum_cons, Nat.succ_mul] at ih ⊢
    omega

/-- The room a tokenizer leaves is room for its list. -/
lemma Accounted.charge_fit (h : Accounted cfg c) (list : List Token) :
    ((c.release c.tokens.bytes).charge cfg (listBytes ((c.budget cfg).fit list).1)).1 = true := by
  have fits := @Budget.fit_total (c.budget cfg) list
  have within := listBytes_le ((c.budget cfg).fit list).1
  have limit := h.limit
  unfold charge release budget Budget.new at *
  rw [if_neg]
  dsimp only at *
  omega

/-- Keeping the tokens that fit the budget keeps the books. -/
lemma Accounted.keepTokens (h : Accounted cfg c) {split : Budget → List Token × Budget}
    {list : List Token} (fits : split (c.budget cfg) = (c.budget cfg).fit list) :
    Accounted cfg (c.keepTokens cfg split).state := by
  have ok := h.charge_fit list
  obtain ⟨same, room⟩ := charge_spec.2 ok
  have sum := h.total
  unfold Containers.keepTokens setTokens
  simp only [fits, ok, if_true, same]
  refine ⟨?_, h.bufs, h.tables, h.gamestate, h.gamestateLength, ?_, room⟩
  · change _ = _ + _ + c.gamestateBytes + _
    unfold release
    dsimp only
    split_ifs with empty
    · rw [List.length_eq_zero_iff.mp empty]
      simp only [listBytes, List.length_nil, Nat.zero_mul, List.map_nil, List.sum_nil]
      omega
    · omega
  · dsimp only
    split_ifs with empty
    · rw [List.length_eq_zero_iff.mp empty]
      rfl
    · rfl

end Buffers

end Containers

/-! ## The builtins -/

/-- The outcome says that a create, an add, a set or a replacement was refused, or that the call
failed. -/
def Outcome.Refused (b : Builtin) (o : Outcome) : Prop :=
  (∃ msg, o.ret = .error msg) ∨
    match b with
    | .hashCreatetab => o.ret = .float 0
    | .bufCreate | .bufstrAdd => o.ret = .float (-1)
    | .hashAdd | .bufstrSet | .bufCopy | .bufCvarlist _ => o.warnings ≠ []
    | _ => False

/-- A call keeps the books, and a refused one changes no contents and no counter. -/
structure Outcome.Keeps (cfg : Config) (c : Containers) (b : Builtin) (o : Outcome) : Prop where
  accounted : o.state.Accounted cfg
  refused : o.Refused b → c.SameContents o.state

namespace Containers

variable {cfg : Config} {c : Containers} {a : Args}

/-- A call that changes no contents keeps the books. -/
lemma Accounted.unchanged {b : Builtin} {o : Outcome} (h : Accounted cfg c)
    (same : c.SameContents o.state) : o.Keeps cfg c b :=
  ⟨h.same same, fun _ => same⟩

/-- A soft error changes no contents. -/
lemma softError_same {msg : String} : c.SameContents (softError cfg c msg).state := by
  unfold softError
  split
  · exact .refl
  · exact .refl

/-- `hash_createtab` keeps the books. -/
lemma keeps_hashCreatetab (h : Accounted cfg c) :
    (c.hashCreatetab cfg a).Keeps cfg c .hashCreatetab := by
  unfold hashCreatetab
  extract_lets given ty table charged
  split_ifs with full ok
  · exact h.unchanged .refl
  · obtain ⟨same, room⟩ := charge_spec.2 ok
    have weight := @Slots.weight_occupy _ Table.bytes c.tables table
    have sum := h.total
    constructor
    · dsimp only
      rw [show charged.2 = _ from same]
      refine ⟨?_, h.bufs, h.tables.occupy (Table.new_exact _ _), h.gamestate, h.gamestateLength,
        h.tokens, room⟩
      change c.containerBytes + table.bytes = _ + _ + c.gamestateBytes + _
      dsimp only [addTable]
      omega
    · rintro (⟨msg, error⟩ | zero)
      · cases error
      · have positive := Ret.float.inj zero
        omega
  · have same : charged.2 = c := charge_spec.1 (Bool.eq_false_iff.mpr ok)
    rw [same]
    exact h.unchanged .refl

/-- A buffer or a table whose bytes are released leaves the books balanced. -/
lemma Accounted.dropTable (h : Accounted cfg c) {i : Nat} {t : Table}
    (here : Slots.get c.tables i = some t) :
    Accounted cfg ({ c with tables := c.tables.set i none }.release t.bytes) := by
  have weight := Slots.weight_empty (f := Table.bytes) here
  have sum := h.total
  refine ⟨?_, h.bufs, h.tables.clear, h.gamestate, h.gamestateLength, h.tokens,
    (Nat.sub_le _ _).trans h.limit⟩
  change _ = _ + _ + c.gamestateBytes + _
  unfold release
  dsimp only
  omega

/-- Dropping a buffer and releasing its bytes keeps the books. -/
lemma Accounted.dropBuf (h : Accounted cfg c) {i : Nat} {buf : StrBuf}
    (here : Slots.get c.bufs i = some buf) :
    Accounted cfg ({ c with bufs := c.bufs.set i none }.release buf.bytes) := by
  have weight := Slots.weight_empty (f := StrBuf.bytes) here
  have sum := h.total
  refine ⟨?_, h.bufs.clear, h.tables, h.gamestate, h.gamestateLength, h.tokens,
    (Nat.sub_le _ _).trans h.limit⟩
  change _ = _ + _ + c.gamestateBytes + _
  unfold release
  dsimp only
  omega

/-- `hash_destroytab` keeps the books. -/
lemma keeps_hashDestroytab (h : Accounted cfg c) :
    (c.hashDestroytab cfg a).Keeps cfg c .hashDestroytab := by
  unfold hashDestroytab
  cases valid : c.tableArg (a.int 0) with
  | none => exact h.unchanged softError_same
  | some c' =>
    obtain ⟨rfl, -⟩ := tableArg_some valid
    have touched := h.same (@touch_same _ (a.int 0))
    dsimp only
    split
    next i t here =>
      obtain ⟨j, -, there⟩ := Option.bind_eq_some_iff.mp here
      obtain ⟨t', gone, same⟩ := Option.map_eq_some_iff.mp there
      cases same
      refine ⟨touched.dropTable gone, ?_⟩
      rintro (⟨msg, error⟩ | never)
      · cases error
      · exact never.elim
    next => exact h.unchanged touch_same

/-- `buf_del` keeps the books. -/
lemma keeps_bufDel (h : Accounted cfg c) : (c.bufDel a).Keeps cfg c .bufDel := by
  unfold bufDel
  split
  next i buf here =>
    obtain ⟨j, -, there⟩ := Option.bind_eq_some_iff.mp here
    obtain ⟨buf', gone, same⟩ := Option.map_eq_some_iff.mp there
    cases same
    refine ⟨h.dropBuf gone, ?_⟩
    rintro (⟨msg, error⟩ | never)
    · cases error
    · exact never.elim
  next => exact h.unchanged .refl

/-- The positions of a key hold entries with that key. -/
lemma positions_entry {t : Table} {key : List Byte} {pos : Nat × Nat}
    (h : pos ∈ t.positions key) : ∃ e, t.entry pos = some e ∧ e.key = key := by
  obtain ⟨⟨e, i⟩, mem, rfl⟩ := List.mem_map.mp h
  obtain ⟨inside, same⟩ := List.mem_filter.mp mem
  have here := List.mem_zipIdx_iff_getElem?.mp (List.mem_reverse.mp inside)
  refine ⟨e, ?_, of_decide_eq_true same⟩
  unfold Table.bucket at here
  unfold Table.entry
  cases bucket : t.buckets[t.bucketOf key]? with
  | none =>
    rw [bucket] at here
    cases here
  | some b =>
    rw [bucket] at here
    exact here

/-- `hash_delete` keeps the books. -/
lemma keeps_hashDelete (h : Accounted cfg c) : (c.hashDelete cfg a).Keeps cfg c .hashDelete := by
  unfold hashDelete
  cases valid : c.tableArg (a.int 0) with
  | none => exact h.unchanged softError_same
  | some c' =>
    obtain ⟨rfl, t, here⟩ := tableArg_some valid
    have touched := h.same (@touch_same _ (a.int 0))
    rw [← table_touch] at here
    simp only [here]
    split
    next pos e found =>
      obtain ⟨pos', -, there⟩ := Option.bind_eq_some_iff.mp found
      obtain ⟨e', mem, same⟩ := Option.map_eq_some_iff.mp there
      cases same
      obtain ⟨exact_, less⟩ := Table.remove_bytes (touched.table_exact here) mem
      have held := touched.entry_le here mem
      constructor
      · have kept := touched.setTable here exact_ Table.length_remove
          (k := (c.touch (a.int 0)).containerBytes - e.bytes) (by omega)
          ((Nat.sub_le _ _).trans touched.limit)
        rwa [← release_setTable] at kept
      · rintro (⟨msg, error⟩ | never)
        · cases value : e.value with
          | text s => simp only [retValue, value] at error; cases error
          | words w => simp only [retValue, value] at error; cases error
        · exact never.elim
    next => exact h.unchanged touch_same

/-- Charging bytes does not touch the tables. -/
lemma table_recharge {handle : Word} {n : Nat} :
    ({ c with containerBytes := n } : Containers).table handle = c.table handle := rfl

/-- The entry `hash_add` replaces holds storage of its table. -/
lemma replaced_entry {t : Table} {key : List Byte} {flags : Word} {pos : Nat × Nat}
    (h : replaced t key flags = some pos) : ∃ e, t.entry pos = some e ∧ e.key = key := by
  unfold replaced at h
  split_ifs at h
  exact positions_entry (List.mem_of_head? h)

/-- Replacing the entry at a position, or adding one, moves the bytes of a table by the
difference. -/
lemma replaced_bytes {t : Table} {replaced : Option (Nat × Nat)} {e : Entry} (exact_ : t.Exact)
    (held : ∀ pos, replaced = some pos → ∃ old, t.entry pos = some old) :
    ((replaced.elim t t.remove).push e).Exact ∧
      ((replaced.elim t t.remove).push e).buckets.length = t.buckets.length ∧
      ((replaced.elim t t.remove).push e).bytes + (replaced.bind t.entry).elim 0 Entry.bytes =
        t.bytes + e.bytes := by
  cases replaced with
  | none =>
    obtain ⟨kept, more⟩ := Table.push_bytes (e := e) exact_
    exact ⟨kept, Table.length_push, more⟩
  | some pos =>
    obtain ⟨old, mem⟩ := held pos rfl
    obtain ⟨left, less⟩ := Table.remove_bytes exact_ mem
    obtain ⟨kept, more⟩ := Table.push_bytes (e := e) left
    simp only [Option.elim_some, Option.bind_some, mem] at more kept ⊢
    refine ⟨kept, ?_, by omega⟩
    rw [Table.length_push, Table.length_remove]

/-- `hash_add` keeps the books. -/
lemma keeps_hashAdd (h : Accounted cfg c) : (c.hashAdd cfg a).Keeps cfg c .hashAdd := by
  unfold hashAdd
  cases valid : c.tableArg (a.int 0) with
  | none => exact h.unchanged softError_same
  | some c' =>
    obtain ⟨rfl, t, here⟩ := tableArg_some valid
    have touched := h.same (@touch_same _ (a.int 0))
    have same : c.SameContents (c.touch (a.int 0)) := touch_same
    rw [← table_touch] at here
    dsimp only
    split_ifs with empty
    · exact h.unchanged same
    · simp only [here]
      generalize flagged : replaced t (a.str 1) (a.optInt 3 0) = replaced
      generalize storedValue (storedTy t (a.optInt 3 0)) (a.str 2) (a.raw 2) = value
      have held (pos) (known : replaced = some pos) : ∃ old, t.entry pos = some old := by
        obtain ⟨old, mem, -⟩ := replaced_entry (flagged.trans known)
        exact ⟨old, mem⟩
      have charged : (replaced.bind t.entry).elim 0 Entry.bytes ≤
          (c.touch (a.int 0)).containerBytes := by
        cases known : replaced.bind t.entry with
        | none => exact Nat.zero_le _
        | some old =>
          obtain ⟨pos, -, mem⟩ := Option.bind_eq_some_iff.mp known
          exact touched.entry_le here mem
      obtain ⟨refused, accepted⟩ := @recharge_spec _ _ _ (entryBytes (a.str 1) value) charged
        touched.limit
      split_ifs with ok
      · obtain ⟨k, changed, moved, room⟩ := accepted ok
        rw [changed]
        simp only [table_recharge, here]
        obtain ⟨kept, length, bytes⟩ := replaced_bytes
          (e := ⟨a.str 1, storedTy t (a.optInt 3 0), value⟩) (touched.table_exact here) held
        refine ⟨touched.setTable here kept length ?_ room, ?_⟩
        · change _ = _ + entryBytes (a.str 1) value at bytes
          omega
        · rintro (⟨msg, error⟩ | warned)
          · cases error
          · exact absurd rfl warned
      · rw [refused (Bool.eq_false_iff.mpr ok)]
        exact h.unchanged same

/-- `buf_create` keeps the books. -/
lemma keeps_bufCreate (h : Accounted cfg c) : (c.bufCreate cfg a).Keeps cfg c .bufCreate := by
  unfold bufCreate
  extract_lets isString
  split_ifs
  · exact h.unchanged .refl
  · have weight := @Slots.weight_occupy _ StrBuf.bytes c.bufs .empty
    have sum := h.total
    constructor
    · refine ⟨?_, h.bufs.occupy ⟨rfl, Nat.zero_le _⟩, h.tables, h.gamestate, h.gamestateLength,
        h.tokens, h.limit⟩
      change c.containerBytes = _ + _ + c.gamestateBytes + _
      change _ = _ + 0 at weight
      dsimp only
      omega
    · rintro (⟨msg, error⟩ | refused)
      · cases error
      · have positive := Ret.float.inj refused
        omega

/-- What `store` and `replace` warn of when they are refused. -/
lemma store_warned {b i : Nat} {s : List Byte} (h : (c.store cfg b i s).1 = true) :
    (c.store cfg b i s).2.2 = [] := by
  unfold store at h ⊢
  cases here : Slots.get c.bufs b with
  | none => rfl
  | some buf =>
    simp only [here] at h ⊢
    split_ifs at h ⊢
    rfl

/-- A replacement that succeeds warns of nothing. -/
lemma replace_warned {b : Nat} {buf' : StrBuf} (h : (c.replace cfg b buf').1 = true) :
    (c.replace cfg b buf').2.2 = [] := by
  unfold replace at h ⊢
  cases here : Slots.get c.bufs b with
  | none => rfl
  | some buf =>
    simp only [here] at h ⊢
    split_ifs at h ⊢
    rfl

/-- A builtin that ends in a replacement. -/
lemma Accounted.keeps_replace {b : Builtin} {i : Nat} {buf' : StrBuf} (h : Accounted cfg c)
    (exact_ : buf'.Exact cfg)
    (warns : ∀ o : Outcome, o.Refused b → (∃ msg, o.ret = .error msg) ∨ o.warnings ≠ []) :
    Outcome.Keeps cfg c b ⟨(c.replace cfg i buf').2.1, .unset, (c.replace cfg i buf').2.2⟩ := by
  refine ⟨h.replace exact_, fun warned => ?_⟩
  cases warns _ warned with
  | inl error =>
    obtain ⟨msg, error⟩ := error
    cases error
  | inr warned =>
    cases ok : (c.replace cfg i buf').1 with
    | true => exact absurd (replace_warned ok) warned
    | false =>
      dsimp only
      rw [h.replace_refused ok]
      exact .refl

/-- `buf_copy` keeps the books. -/
lemma keeps_bufCopy (h : Accounted cfg c) : (c.bufCopy cfg a).Keeps cfg c .bufCopy := by
  unfold bufCopy
  split
  next source target _ _ =>
    split_ifs
    · exact h.unchanged .refl
    · split
      next copy here => exact h.keeps_replace (h.bufs source copy here) fun o refused => refused
      next => exact h.unchanged .refl
  next => exact h.unchanged .refl

/-- The count of a buffer made of strings within the limit is exact. -/
lemma fromStrings_exact {strings : List (Option (List Byte))}
    (h : strings.length ≤ cfg.stringBufferEntries) : (StrBuf.fromStrings strings).Exact cfg :=
  ⟨rfl, h⟩

/-- `buf_cvarlist` keeps the books. -/
lemma keeps_bufCvarlist (h : Accounted cfg c) {names : List (List Byte)} :
    (c.bufCvarlist cfg a names).Keeps cfg c (.bufCvarlist names) := by
  unfold bufCvarlist
  split
  next => exact h.unchanged .refl
  next b _ =>
    refine h.keeps_replace (fromStrings_exact ?_) fun o refused => refused
    rw [List.length_map]
    exact List.length_take_le _ _

/-- `bufstr_set` keeps the books. -/
lemma keeps_bufstrSet (h : Accounted cfg c) : (c.bufstrSet cfg a).Keeps cfg c .bufstrSet := by
  unfold bufstrSet
  split
  next b i _ _ =>
    split_ifs with outside
    · exact h.unchanged .refl
    · refine ⟨h.store (Nat.not_le.mp fun past => outside (Or.inr past)), ?_⟩
      rintro (⟨msg, error⟩ | warned)
      · cases error
      · cases ok : (c.store cfg b i (a.str 2)).1 with
        | true => exact absurd (store_warned ok) warned
        | false =>
          dsimp only
          rw [h.store_refused ok]
          exact .refl
  next => exact h.unchanged .refl

/-- `bufstr_add` keeps the books. -/
lemma keeps_bufstrAdd (h : Accounted cfg c) : (c.bufstrAdd cfg a).Keeps cfg c .bufstrAdd := by
  unfold bufstrAdd
  split
  next => exact h.unchanged .refl
  next b _ =>
    split
    next => exact h.unchanged .refl
    next buf here =>
      generalize (if a.int 2 ≠ 0 then buf.strings.length else Slots.free buf.strings) = i
      dsimp only
      by_cases full : cfg.stringBufferEntries ≤ i
      · rw [if_pos full]
        exact h.unchanged .refl
      · rw [if_neg full]
        refine ⟨h.store (Nat.not_le.mp full), ?_⟩
        rintro (⟨msg, error⟩ | negative)
        · cases error
        · have shown := Ret.float.inj negative
          cases ok : (c.store cfg b i (a.str 1)).1 with
          | true =>
            rw [ok, if_pos rfl] at shown
            omega
          | false =>
            dsimp only
            rw [h.store_refused ok]
            exact .refl

/-- `bufstr_free` keeps the books. -/
lemma keeps_bufstrFree (h : Accounted cfg c) : (c.bufstrFree a).Keeps cfg c .bufstrFree := by
  unfold bufstrFree
  split
  next b i _ _ =>
    split
    next buf here =>
      have held := h.bufs b buf here
      obtain ⟨exact_, less⟩ := StrBuf.free_bytes (i := i) held.bytes
      have within := h.buf_le here
      constructor
      · exact h.writeBuf here held.free (k := c.containerBytes - buf.freed i) (by omega)
          ((Nat.sub_le _ _).trans h.limit)
      · rintro (⟨msg, error⟩ | never)
        · cases error
        · exact never.elim
    next => exact h.unchanged .refl
  next => exact h.unchanged .refl

/-- Sorting keeps the strings, so their cost is what it was without the holes. -/
lemma cost_sorted {strings : List (Option (List Byte))} {le : List Byte → List Byte → Bool} :
    StrBuf.cost (((strings.filterMap id).mergeSort le).map some) ≤ StrBuf.cost strings ∧
      (((strings.filterMap id).mergeSort le).map some).length ≤ strings.length := by
  have shorter : (strings.filterMap id).length ≤ strings.length := List.length_filterMap_le _ _
  have length : (((strings.filterMap id).mergeSort le).map some).length =
      (strings.filterMap id).length := by
    rw [List.length_map, List.length_mergeSort]
  have sorted := (List.mergeSort_perm (strings.filterMap id) le).map List.length
  refine ⟨?_, length.trans_le shorter⟩
  unfold StrBuf.cost
  rw [Slots.weight_map_some, sorted.sum_nat, Slots.sum_filterMap, length]
  exact Nat.add_le_add_right (Nat.mul_le_mul_right _ shorter) _

/-- Sorting a buffer is never refused. -/
lemma keeps_bufSort (h : Accounted cfg c) :
    (c.bufSort cfg a).Keeps cfg c .bufSort ∧ (c.bufSort cfg a).warnings = [] := by
  unfold bufSort
  split
  next => exact ⟨h.unchanged .refl, rfl⟩
  next i _ =>
    dsimp only
    split
    next => exact ⟨h.unchanged .refl, rfl⟩
    next buf here =>
      have held := h.bufs i buf here
      generalize (if (a.int 1).toInt ≤ 0 then none else some (a.int 1).toNat) = limit
      obtain ⟨less, shorter⟩ := @cost_sorted buf.strings
        (sortLe limit (a.nonzero 2))
      generalize ((buf.strings.filterMap id).mergeSort (sortLe limit (a.nonzero 2))).map some =
        sorted at less shorter
      -- the entries are out of the buffer while it is charged again
      have there : Slots.get (c.setBuf i { buf with strings := [] }).bufs i =
          some { buf with strings := [] } := by
        rw [Slots.get_eq_some]
        exact List.getElem?_set_self (Slots.lt_of_get here)
      have shrinks : ((c.setBuf i { buf with strings := [] }).recharge cfg buf.bytes
          (StrBuf.fromStrings sorted).bytes).1 = true :=
        recharge_shrinks (held.bytes ▸ less) h.limit
      obtain ⟨k, changed, moved, room⟩ := (recharge_spec
        (c := c.setBuf i { buf with strings := [] }) (h.buf_le here) h.limit).2 shrinks
      have replaced : (c.setBuf i { buf with strings := [] }).replace cfg i (.fromStrings sorted) =
          (true, { c with containerBytes := k }.setBuf i (.fromStrings sorted), []) := by
        unfold replace
        simp only [there, shrinks, if_true, changed]
        simp only [setBuf, List.set_set]
      rw [replaced]
      constructor
      · constructor
        · exact h.writeBuf here (fromStrings_exact (shorter.trans held.entries)) moved room
        · rintro (⟨msg, error⟩ | never)
          · cases error
          · exact never.elim
      · rfl

/-- The lines of a file are stored one after the other. -/
lemma Accounted.storeLines {b : Nat} {lines : List (List Byte)} (h : Accounted cfg c) :
    Accounted cfg (Containers.storeLines cfg b c lines).1 := by
  induction lines generalizing c with
  | nil => exact h
  | cons line lines ih =>
    unfold Containers.storeLines
    split
    next => exact h
    next buf here =>
      split_ifs with full
      · exact h
      · have kept := h.store (b := b) (s := line) (Nat.not_le.mp full)
        dsimp only
        split_ifs
        · exact ih kept
        · exact kept

/-- `buf_loadfile` keeps the books. -/
lemma keeps_bufLoadfile (h : Accounted cfg c) {data : Option (List Byte)} :
    (c.bufLoadfile cfg a data).Keeps cfg c (.bufLoadfile data) := by
  unfold bufLoadfile
  split
  next b data _ =>
    refine ⟨h.storeLines, ?_⟩
    rintro (⟨msg, error⟩ | never)
    · cases error
    · exact never.elim
  next => exact h.unchanged .refl

/-- The three tokenizers charge for a list that fits what their budget leaves. -/
lemma keeps_tokenize (h : Accounted cfg c) :
    (c.tokenize cfg a).Keeps cfg c .tokenize ∧
      (c.tokenizeConsole cfg a).Keeps cfg c .tokenizeConsole ∧
      (c.tokenizebyseparator cfg a).Keeps cfg c .tokenizebyseparator := by
  refine ⟨⟨h.keepTokens split_eq, ?_⟩, ⟨h.keepTokens split_eq, ?_⟩, ⟨h.keepTokens splitBy_eq, ?_⟩⟩
  all_goals
    rintro (⟨msg, error⟩ | never)
    · cases error
    · exact never.elim

/-- `hash_get` changes no contents. -/
lemma same_hashGet : c.SameContents (c.hashGet cfg a).state := by
  unfold hashGet
  extract_lets default
  split
  next =>
    split
    · exact .refl
    · exact .refl
  next c' valid =>
    obtain ⟨rfl, -⟩ := tableArg_some valid
    split
    · exact touch_same
    · exact touch_same

/-- `hash_getkey` changes no contents. -/
lemma same_hashGetkey : c.SameContents (c.hashGetkey cfg a).state := by
  unfold hashGetkey
  split
  next => exact softError_same
  next c' valid =>
    obtain ⟨rfl, -⟩ := tableArg_some valid
    split
    · exact touch_same
    · exact touch_same

/-- `hash_getcb` changes no contents. -/
lemma same_hashGetcb : c.SameContents (c.hashGetcb cfg a).state := by
  unfold hashGetcb
  split
  next => exact softError_same
  next c' valid =>
    obtain ⟨rfl, -⟩ := tableArg_some valid
    exact touch_same

/-- `bufstr_get` changes no contents. -/
lemma same_bufstrGet : c.SameContents (c.bufstrGet a).state := by
  unfold bufstrGet
  split
  · exact .refl
  · exact .refl

/-- `argv` changes no contents. -/
lemma same_argv : c.SameContents (c.argv a).state := by
  unfold argv
  split
  · exact .refl
  · exact .refl

/-- Every builtin keeps the books. -/
lemma Accounted.call (h : Accounted cfg c) (b : Builtin) : (c.call cfg b a).Keeps cfg c b := by
  cases b with
  | hashCreatetab => exact keeps_hashCreatetab h
  | hashDestroytab => exact keeps_hashDestroytab h
  | hashAdd => exact keeps_hashAdd h
  | hashGet => exact h.unchanged same_hashGet
  | hashDelete => exact keeps_hashDelete h
  | hashGetkey => exact h.unchanged same_hashGetkey
  | hashGetcb => exact h.unchanged same_hashGetcb
  | bufCreate => exact keeps_bufCreate h
  | bufDel => exact keeps_bufDel h
  | bufGetsize => exact h.unchanged .refl
  | bufCopy => exact keeps_bufCopy h
  | bufSort => exact (keeps_bufSort h).1
  | bufstrGet => exact h.unchanged same_bufstrGet
  | bufstrSet => exact keeps_bufstrSet h
  | bufstrAdd => exact keeps_bufstrAdd h
  | bufstrFree => exact keeps_bufstrFree h
  | bufCvarlist names => exact keeps_bufCvarlist h
  | bufLoadfile data => exact keeps_bufLoadfile h
  | tokenize => exact (keeps_tokenize h).1
  | tokenizeConsole => exact (keeps_tokenize h).2.1
  | tokenizebyseparator => exact (keeps_tokenize h).2.2
  | argv => exact h.unchanged same_argv
  | argc => exact h.unchanged .refl
  | argvStartIndex => exact h.unchanged .refl
  | argvEndIndex => exact h.unchanged .refl

/-- A VM's containers start empty. -/
lemma accounted_fresh : Accounted cfg fresh where
  total := rfl
  bufs i buf here := by cases here
  tables i t here := by cases here
  gamestate := Table.new_exact gamestateBuckets evString
  gamestateLength := List.length_replicate
  tokens := rfl
  limit := Nat.zero_le _

/-- Every sequence of calls keeps the books. -/
lemma accounted_run {calls : List (Builtin × Args)} (h : Accounted cfg c) :
    Accounted cfg (c.run cfg calls) := by
  induction calls generalizing c with
  | nil => exact h
  | cons call calls ih => exact ih (h.call call.1).accounted

/-- After any sequence of calls of the builtins the books balance: the counter is the sum of the
storage of the buffers, the tables (without the bucket array of the `gamestate` table) and the
token list, each container's count is the cost of its contents, the counter is within the limit and
no buffer exceeds the entry limit. There, a refused call changes no contents and no counter, nor
does a refused `store` or `replace` inside one, sorting is not refused, and the charge for a
finished token list succeeds. -/
theorem containers_accounted (cfg : Config) (calls : List (Builtin × Args)) :
    Accounted cfg (fresh.run cfg calls) ∧
      (∀ b a, ((fresh.run cfg calls).call cfg b a).Refused b →
        (fresh.run cfg calls).SameContents ((fresh.run cfg calls).call cfg b a).state) ∧
      (∀ b i s, ((fresh.run cfg calls).store cfg b i s).1 = false →
        ((fresh.run cfg calls).store cfg b i s).2.1 = fresh.run cfg calls) ∧
      (∀ b buf, ((fresh.run cfg calls).replace cfg b buf).1 = false →
        ((fresh.run cfg calls).replace cfg b buf).2.1 = fresh.run cfg calls) ∧
      (∀ a, ((fresh.run cfg calls).bufSort cfg a).warnings = []) ∧
      (∀ s qc, (((fresh.run cfg calls).release (fresh.run cfg calls).tokens.bytes).charge cfg
        (listBytes (split s qc ((fresh.run cfg calls).budget cfg)).1)).1 = true) ∧
      (∀ s seps, (((fresh.run cfg calls).release (fresh.run cfg calls).tokens.bytes).charge cfg
        (listBytes (splitBy s seps ((fresh.run cfg calls).budget cfg)).1)).1 = true) := by
  have h : Accounted cfg (fresh.run cfg calls) := accounted_run accounted_fresh
  refine ⟨h, fun b a => (h.call b).refused, fun b i s => h.store_refused,
    fun b buf => h.replace_refused, fun a => (keeps_bufSort h).2, fun s qc => ?_, fun s seps => ?_⟩
  · rw [split_eq]
    exact h.charge_fit _
  · rw [splitBy_eq]
    exact h.charge_fit _

end Containers

end Qcvm.Stdlib

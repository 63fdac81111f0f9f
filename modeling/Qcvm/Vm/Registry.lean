import Mathlib.Data.List.AList
import Mathlib.Data.List.Induction
import Qcvm.Vm.Multiprogs

/-!
# The builtin registry

The `Builtins` of `builtins/mod.rs`: a vector of entries and two maps into it, by name and by number.
An entry is replaced in place when its name is registered again and stays behind when the name is
removed, so a number is only bound through the entry that took it. What the registry binds is stated
over the history of registrations, the last one first (`holder`, `latest`).
-/

namespace Qcvm

/-- A builtin's name. -/
abbrev Name := List Byte

namespace Registry

variable {F : Type}

/-- `Entry`. -/
structure Entry (F : Type) where
  name : Name
  number : Option Nat
  func : F
  deriving DecidableEq

end Registry

/-- `Builtins`. -/
structure Registry (F : Type) where
  entries : List (Registry.Entry F)
  byName : AList fun _ : Name => Nat
  byNumber : AList fun _ : Nat => Nat

namespace Registry

variable {F : Type}

/-- `HashMap::retain`, by the values. -/
def retain (m : AList fun _ : Nat => Nat) (p : Nat → Bool) : AList fun _ : Nat => Nat :=
  ⟨m.entries.filter fun e => p e.2, m.nodupKeys.sublist List.filter_sublist⟩

/-- `empty`. -/
def empty : Registry F := ⟨[], ∅, ∅⟩

/-- The numbers without the one an entry was bound to, unless another builtin has taken it over. -/
def unbind (m : AList fun _ : Nat => Nat) (number : Option Nat) (i : Nat) : AList fun _ : Nat => Nat :=
  match number with
  | some old => if m.lookup old = some i then m.erase old else m
  | none => m

/-- `insert`. -/
def insert (r : Registry F) (name : Name) (number : Option Nat) (func : F) : Registry F :=
  let (r, index) : Registry F × Nat := match r.byName.lookup name with
    | some i =>
      match r.entries[i]? with
      | some entry =>
        ({ r with
            entries := r.entries.set i ⟨name, number, func⟩
            byNumber := unbind r.byNumber entry.number i }, i)
      | none => (r, i)
    | none =>
      let entries := r.entries ++ [⟨name, number, func⟩]
      ({ r with entries := entries, byName := r.byName.insert name (entries.length - 1) },
        entries.length - 1)
  match number with
  | some n => { r with byNumber := r.byNumber.insert n index }
  | none => r

/-- `set_numbered`. -/
def setNumbered (r : Registry F) (number : Nat) (name : Name) (func : F) : Registry F :=
  r.insert name (some number) func

/-- `set`, where `builtinNumber` is the table of the registry's numbering. -/
def set (builtinNumber : Name → Option Nat) (r : Registry F) (name : Name) (func : F) : Registry F :=
  r.insert name (builtinNumber name) func

/-- `alias`. -/
def aliasName (r : Registry F) (other target : Name) : Registry F :=
  match (r.byName.lookup target).bind fun i => r.entries[i]? with
  | some e => r.insert other none e.func
  | none => r

/-- `remove`. -/
def remove (r : Registry F) (name : Name) : Registry F :=
  match r.byName.lookup name with
  | some i => { r with byName := r.byName.erase name, byNumber := retain r.byNumber (· ≠ i) }
  | none => r

/-- The number `registered` shows for the entry at an index. -/
def numberShown (r : Registry F) (i : Nat) : Option Nat :=
  (r.entries[i]?.bind (·.number)).filter fun n => r.byNumber.lookup n = some i

/-- The order of `registered`: by name, then by number. -/
def shownLe (a b : Name × Option Nat) : Bool :=
  decide (a.1 < b.1) || decide (a.1 = b.1) && decide (a.2.elim 0 (· + 1) ≤ b.2.elim 0 (· + 1))

/-- `registered`. -/
def registered (r : Registry F) : List (Name × Option Nat) :=
  (r.byName.entries.map fun e => (e.1, r.numberShown e.2)).mergeSort shownLe

/-- A binding slot. -/
def slot (i : Nat) : Option Nat := if i ≤ u32Max then some i else none

/-- `bind_number`. -/
def bindNumber (r : Registry F) (number : Nat) : Option Nat := (r.byNumber.lookup number).bind slot

/-- `bind_name`. -/
def bindName (r : Registry F) (name : Name) : Option Nat := (r.byName.lookup name).bind slot

/-- `func`. -/
def func (r : Registry F) (slot : Nat) : Option F := r.entries[slot]?.map (·.func)

/-- What a registry binds for the progs that are loaded. -/
def builtins (r : Registry F) : Builtins := ⟨r.bindNumber, r.bindName, fun s => (r.func s).isSome⟩

/-- The operations that change a registry. -/
inductive Op (F : Type) where
  | set (name : Name) (func : F)
  | setNumbered (number : Nat) (name : Name) (func : F)
  | aliasName (other target : Name)
  | remove (name : Name)

/-- One operation. -/
def step (builtinNumber : Name → Option Nat) (r : Registry F) : Op F → Registry F
  | .set name func => r.set builtinNumber name func
  | .setNumbered number name func => r.setNumbered number name func
  | .aliasName other target => r.aliasName other target
  | .remove name => r.remove name

/-- The registry after a sequence of operations. -/
def run (builtinNumber : Name → Option Nat) (ops : List (Op F)) : Registry F :=
  ops.foldl (step builtinNumber) empty

/-! ## The history -/

/-- What happened to a name. -/
inductive Event (F : Type) where
  | registered (name : Name) (number : Option Nat) (func : F)
  | removed (name : Name)

/-- The name an event is about. -/
def Event.name : Event F → Name
  | .registered name _ _ => name
  | .removed name => name

/-- The event registers a name at a number. -/
def Event.takes (n : Nat) : Event F → Bool
  | .registered _ number _ => number = some n
  | .removed _ => false

/-- The number and the function an event registers a name with. -/
def Event.outcome : Event F → Option (Option Nat × F)
  | .registered _ number func => some (number, func)
  | .removed _ => none

/-- The number and the function of the last registration of a name, unless it was removed since; the last
event comes first. -/
def latest (events : List (Event F)) (name : Name) : Option (Option Nat × F) :=
  (events.find? fun e => e.name = name).bind Event.outcome

/-- The name of the last registration that took a number, unless something happened to the name since. -/
def holder (events : List (Event F)) (n : Nat) : Option Name :=
  (events.find? fun e => e.takes n).bind fun taken =>
    if (events.takeWhile fun e => !e.takes n).any fun e => e.name = taken.name then none
    else some taken.name

/-- The history with the event of an operation; an alias of a name that is not registered is none. -/
def record (builtinNumber : Name → Option Nat) (events : List (Event F)) : Op F → List (Event F)
  | .set name func => .registered name (builtinNumber name) func :: events
  | .setNumbered number name func => .registered name (some number) func :: events
  | .aliasName other target =>
    match latest events target with
    | some (_, func) => .registered other none func :: events
    | none => events
  | .remove name => .removed name :: events

/-- The history of a sequence of operations. -/
def history (builtinNumber : Name → Option Nat) (ops : List (Op F)) : List (Event F) :=
  ops.foldl (record builtinNumber) []

variable {r : Registry F} {events : List (Event F)} {name other : Name} {number : Option Nat} {func : F}
  {n i : Nat}

/-- The last event of a name decides. -/
lemma latest_cons (e : Event F) :
    latest (e :: events) name = if e.name = name then e.outcome else latest events name := by
  unfold latest
  rw [List.find?_cons]
  by_cases same : e.name = name
  · rw [decide_eq_true same, if_pos same]
    rfl
  · rw [decide_eq_false same, if_neg same]

/-- An event takes a number, loses its name's number, or leaves the number alone. -/
lemma holder_cons (e : Event F) : holder (e :: events) n
    = if e.takes n then some e.name
      else if holder events n = some e.name then none else holder events n := by
  unfold holder
  rw [List.find?_cons, List.takeWhile_cons]
  cases takes : e.takes n with
  | true => rfl
  | false =>
    dsimp only
    rw [if_neg Bool.false_ne_true]
    cases events.find? fun e => e.takes n with
    | none => rfl
    | some taken =>
      rw [Option.bind_some, Option.bind_some, Bool.not_false, if_pos rfl, List.any_cons]
      generalize ((events.takeWhile fun e => !e.takes n).any fun e => e.name = taken.name) = gone
      by_cases same : e.name = taken.name
      · rw [decide_eq_true same, Bool.true_or, if_pos rfl, same]
        cases gone with
        | true => rfl
        | false => exact (if_pos rfl).symm
      · rw [decide_eq_false same, Bool.false_or]
        cases gone with
        | true => rfl
        | false => exact (if_neg fun no => same (Option.some.inj no).symm).symm

/-- A registration is the last event of its name. -/
lemma latest_registered : latest (.registered name number func :: events) other
    = if name = other then some (number, func) else latest events other := latest_cons _

/-- A removal is the last event of its name. -/
lemma latest_removed : latest (.removed name :: events) other
    = if name = other then none else latest events other := latest_cons _

/-- A registration takes its number, and gives up the one its name held. -/
lemma holder_registered : holder (.registered name number func :: events) n
    = if number = some n then some name
      else if holder events n = some name then none else holder events n := by
  rw [holder_cons]
  unfold Event.takes
  simp only [decide_eq_true_eq]
  rfl

/-- A removal gives up the number of its name. -/
lemma holder_removed : holder (.removed name :: events) n
    = if holder events n = some name then none else holder events n :=
  (holder_cons _).trans (if_neg Bool.false_ne_true)

/-- The holder of a number was last registered with it. -/
lemma holder_latest (h : holder events n = some name) :
    ∃ func, latest events name = some (some n, func) := by
  induction events with
  | nil => cases h
  | cons e events ih =>
    rw [holder_cons] at h
    rw [latest_cons]
    by_cases takes : e.takes n = true
    · rw [if_pos takes] at h
      cases h
      cases e with
      | registered name number func =>
        obtain rfl : number = some n := of_decide_eq_true takes
        exact ⟨func, if_pos rfl⟩
      | removed => cases takes
    · rw [if_neg takes] at h
      by_cases lost : holder events n = some e.name
      · rw [if_pos lost] at h
        cases h
      · rw [if_neg lost] at h
        rw [if_neg fun same => lost (by rw [h, same])]
        exact ih h

/-- The registry is that of its history. -/
structure Agrees (r : Registry F) (events : List (Event F)) : Prop where
  live : ∀ name i, r.byName.lookup name = some i → ∃ number func,
    latest events name = some (number, func) ∧ r.entries[i]? = some ⟨name, number, func⟩
  gone : ∀ name, r.byName.lookup name = none → latest events name = none
  numbers : ∀ n, r.byNumber.lookup n = (holder events n).bind fun name => r.byName.lookup name

namespace Agrees

/-- Two names do not lead to one entry. -/
lemma name_unique (h : Agrees r events) (e : r.byName.lookup name = some i)
    (e' : r.byName.lookup other = some i) : name = other := by
  obtain ⟨_, _, _, here⟩ := h.live name i e
  obtain ⟨_, _, _, there⟩ := h.live other i e'
  cases here.symm.trans there
  rfl

/-- The entry of a name is inside the vector. -/
lemma index_lt (h : Agrees r events) (e : r.byName.lookup name = some i) : i < r.entries.length := by
  obtain ⟨_, _, _, here⟩ := h.live name i e
  exact (List.getElem?_eq_some_iff.mp here).1

/-- A number that is bound to a name's entry is held by the name. -/
lemma holder_of_lookup (h : Agrees r events) (e : r.byNumber.lookup n = some i)
    (e' : r.byName.lookup name = some i) : holder events n = some name := by
  rw [h.numbers] at e
  obtain ⟨other, held, there⟩ := Option.bind_eq_some_iff.mp e
  rw [held, h.name_unique there e']

/-- A name that is not registered holds no number. -/
lemma holder_ne (h : Agrees r events) (e : r.byName.lookup name = none) (n : Nat) :
    holder events n ≠ some name := by
  intro held
  obtain ⟨func, is⟩ := holder_latest held
  rw [h.gone name e] at is
  cases is

/-- The empty registry agrees with no events. -/
lemma empty : Agrees (Registry.empty : Registry F) [] :=
  ⟨fun _ _ no => (nomatch no), fun _ _ => rfl, fun _ => rfl⟩

end Agrees

/-! ## One operation -/

/-- What is retained of the numbers. -/
lemma lookup_retain (m : AList fun _ : Nat => Nat) (p : Nat → Bool) (n : Nat) :
    (retain m p).lookup n = (m.lookup n).filter p := by
  ext i
  have kept := @AList.mem_lookup_iff _ _ _ n i (retain m p)
  have all := @AList.mem_lookup_iff _ _ _ n i m
  rw [Option.mem_def] at kept all
  rw [kept, Option.filter_eq_some_iff, all]
  exact List.mem_filter

/-- What unbinding the number of an entry leaves. -/
lemma lookup_unbind (m : AList fun _ : Nat => Nat) (number : Option Nat) (i n : Nat) :
    (unbind m number i).lookup n = if number = some n ∧ m.lookup n = some i then none else m.lookup n := by
  unfold unbind
  cases number with
  | none => rw [if_neg fun no => nomatch no.1]
  | some old =>
    dsimp only
    by_cases bound : m.lookup old = some i
    · rw [if_pos bound]
      by_cases same : old = n
      · subst same
        rw [if_pos ⟨rfl, bound⟩]
        exact AList.lookup_erase old m
      · rw [if_neg fun no => same (Option.some.inj no.1)]
        exact AList.lookup_erase_ne (Ne.symm same)
    · rw [if_neg bound, if_neg]
      rintro ⟨same, no⟩
      cases same
      exact bound no

/-- Once the entry and the name are in place, the number is bound. -/
lemma agrees_of_entry (here : r.byName.lookup name = some i)
    (live : ∀ other j, r.byName.lookup other = some j → ∃ k f,
      latest (.registered name number func :: events) other = some (k, f) ∧
        r.entries[j]? = some ⟨other, k, f⟩)
    (gone : ∀ other, r.byName.lookup other = none →
      latest (.registered name number func :: events) other = none)
    (numbers : ∀ n, r.byNumber.lookup n
      = (if holder events n = some name then none else holder events n).bind
          fun name => r.byName.lookup name) :
    Agrees (match number with
      | some n => { r with byNumber := r.byNumber.insert n i }
      | none => r) (.registered name number func :: events) := by
  cases number with
  | none =>
    refine ⟨live, gone, fun n => ?_⟩
    rw [holder_registered, if_neg fun no => nomatch no]
    exact numbers n
  | some k =>
    refine ⟨live, gone, fun n => ?_⟩
    rw [holder_registered]
    dsimp only
    by_cases same : k = n
    · rw [if_pos (congrArg some same), ← same, AList.lookup_insert]
      exact here.symm
    · rw [if_neg fun no => same (Option.some.inj no), AList.lookup_insert_ne (Ne.symm same)]
      exact numbers n

/-- Registering a name keeps the registry that of its history. -/
lemma Agrees.insert (h : Agrees r events) (name : Name) (number : Option Nat) (func : F) :
    Agrees (r.insert name number func) (.registered name number func :: events) := by
  unfold Registry.insert
  cases found : r.byName.lookup name with
  -- A new name gets a new entry at the end.
  | none =>
    dsimp only
    rw [List.length_append, List.length_singleton, Nat.add_sub_cancel]
    refine agrees_of_entry
      (r := ⟨r.entries ++ [⟨name, number, func⟩], r.byName.insert name r.entries.length, r.byNumber⟩)
      (AList.lookup_insert _) (fun other j e => ?_) (fun other e => ?_) fun n => ?_
    · rw [latest_registered]
      dsimp only at e ⊢
      by_cases same : name = other
      · subst same
        cases (AList.lookup_insert _).symm.trans e
        exact ⟨number, func, if_pos rfl, List.getElem?_concat_length⟩
      · rw [if_neg same]
        rw [AList.lookup_insert_ne (Ne.symm same)] at e
        obtain ⟨k, f, is, there⟩ := h.live other j e
        exact ⟨k, f, is, (List.getElem?_append_left (h.index_lt e)).trans there⟩
    · rw [latest_registered]
      dsimp only at e
      by_cases same : name = other
      · subst same
        cases (AList.lookup_insert _).symm.trans e
      · rw [if_neg same]
        rw [AList.lookup_insert_ne (Ne.symm same)] at e
        exact h.gone other e
    · rw [if_neg (h.holder_ne found n), h.numbers n]
      cases held : holder events n with
      | none => rfl
      | some other =>
        have ne : other ≠ name := fun same => h.holder_ne found n (same ▸ held)
        exact (AList.lookup_insert_ne ne).symm
  -- A known name keeps its entry and gives up the number it held.
  | some i =>
    dsimp only
    obtain ⟨old, oldFunc, is, here⟩ := h.live name i found
    rw [here]
    dsimp only
    refine agrees_of_entry
      (r := ⟨r.entries.set i ⟨name, number, func⟩, r.byName, unbind r.byNumber old i⟩)
      found (fun other j e => ?_) (fun other e => ?_) fun n => ?_
    · rw [latest_registered]
      dsimp only at e ⊢
      by_cases same : name = other
      · subst same
        cases found.symm.trans e
        exact ⟨number, func, if_pos rfl, List.getElem?_set_self (h.index_lt found)⟩
      · rw [if_neg same]
        obtain ⟨k, f, is, there⟩ := h.live other j e
        have ne : i ≠ j := fun eq => same (h.name_unique found (eq ▸ e))
        exact ⟨k, f, is, (List.getElem?_set_ne ne).trans there⟩
    · rw [latest_registered]
      by_cases same : name = other
      · subst same
        cases found.symm.trans e
      · rw [if_neg same]
        exact h.gone other e
    · dsimp only
      rw [lookup_unbind]
      by_cases held : holder events n = some name
      · obtain ⟨f, is'⟩ := holder_latest held
        cases is.symm.trans is'
        have bound : r.byNumber.lookup n = some i := by
          rw [h.numbers, held, Option.bind_some, found]
        rw [if_pos ⟨rfl, bound⟩, if_pos held]
        rfl
      · rw [if_neg held, if_neg fun both => held (h.holder_of_lookup both.2 found)]
        exact h.numbers n

/-- Removing a name keeps the registry that of its history. -/
lemma Agrees.remove (h : Agrees r events) (name : Name) :
    Agrees (r.remove name) (.removed name :: events) := by
  unfold Registry.remove
  cases found : r.byName.lookup name with
  | none =>
    dsimp only
    refine ⟨fun other i e => ?_, fun other e => ?_, fun n => ?_⟩
    · have ne : name ≠ other := fun same => by rw [← same, found] at e; cases e
      rw [latest_removed, if_neg ne]
      exact h.live other i e
    · rw [latest_removed]
      split
      next => rfl
      next => exact h.gone other e
    · rw [holder_removed, if_neg (h.holder_ne found n)]
      exact h.numbers n
  | some i =>
    dsimp only
    refine ⟨fun other j e => ?_, fun other e => ?_, fun n => ?_⟩
    · have ne : other ≠ name := fun same => by
        rw [same] at e
        cases (AList.lookup_erase name _).symm.trans e
      rw [latest_removed, if_neg ne.symm]
      exact h.live other j ((AList.lookup_erase_ne ne).symm.trans e)
    · rw [latest_removed]
      split
      next => rfl
      next ne => exact h.gone other ((AList.lookup_erase_ne (Ne.symm ne)).symm.trans e)
    · rw [holder_removed, lookup_retain, h.numbers n]
      cases held : holder events n with
      | none => rfl
      | some other =>
        rw [Option.bind_some]
        by_cases same : other = name
        · rw [same, if_pos rfl, found]
          exact if_neg (by simp)
        · rw [if_neg fun no => same (Option.some.inj no), Option.bind_some, AList.lookup_erase_ne same]
          cases there : r.byName.lookup other with
          | none => rfl
          | some j =>
            have ne : j ≠ i := fun e => same (h.name_unique (e ▸ there) found)
            rw [Option.filter_some, if_pos (decide_eq_true ne)]

/-- An operation keeps the registry that of its history. -/
lemma Agrees.step (h : Agrees r events) (builtinNumber : Name → Option Nat) (op : Op F) :
    Agrees (r.step builtinNumber op) (record builtinNumber events op) := by
  cases op with
  | set name func => exact h.insert name (builtinNumber name) func
  | setNumbered number name func => exact h.insert name (some number) func
  | remove name => exact h.remove name
  | aliasName other target =>
    unfold Registry.step aliasName record
    dsimp only
    cases found : r.byName.lookup target with
    | none =>
      rw [h.gone target found]
      exact h
    | some i =>
      obtain ⟨number, func, is, here⟩ := h.live target i found
      rw [Option.bind_some, here, is]
      exact h.insert other none func

/-- The registry after a sequence of operations is that of its history. -/
lemma agrees_run (builtinNumber : Name → Option Nat) (ops : List (Op F)) :
    Agrees (run builtinNumber ops) (history builtinNumber ops) := by
  unfold run history
  induction ops using List.reverseRecOn with
  | nil => exact .empty
  | append_singleton ops op ih =>
    rw [List.foldl_append, List.foldl_append]
    exact ih.step builtinNumber op

/-! ## What is bound -/

/-- The number shown for a name is the one it holds. -/
lemma Agrees.numberShown (h : Agrees r events) (e : r.byName.lookup name = some i) :
    r.numberShown i = some n ↔ holder events n = some name := by
  obtain ⟨number, func, is, here⟩ := h.live name i e
  unfold Registry.numberShown
  rw [here, Option.bind_some, Option.filter_eq_some_iff, decide_eq_true_eq]
  dsimp only
  constructor
  · rintro ⟨_, bound⟩
    exact h.holder_of_lookup bound e
  · intro held
    obtain ⟨f, is'⟩ := holder_latest held
    cases is.symm.trans is'
    exact ⟨rfl, by rw [h.numbers, held, Option.bind_some, e]⟩

/-- The registered names, with the numbers they show. -/
lemma mem_registered {shown : Option Nat} : (name, shown) ∈ r.registered ↔
    ∃ i, r.byName.lookup name = some i ∧ r.numberShown i = shown := by
  unfold registered
  rw [List.mem_mergeSort, List.mem_map]
  constructor
  · rintro ⟨⟨_, i⟩, mem, e⟩
    cases e
    exact ⟨i, AList.mem_lookup_iff.mpr mem, rfl⟩
  · rintro ⟨i, e, rfl⟩
    exact ⟨⟨name, i⟩, AList.mem_lookup_iff.mp e, rfl⟩

/-- Every name is shown once. -/
lemma nodup_registered (r : Registry F) : (r.registered.map (·.1)).Nodup := by
  unfold registered
  refine ((List.mergeSort_perm _ _).map _).nodup_iff.mpr ?_
  rw [List.map_map]
  exact r.byName.keys_nodup

/-- After any operations the registry binds what its history says: a bound number leads to the entry that
took it and whose name leads there too, a number to the entry of its holder, a name to its latest
registration, and what is shown are the names that are registered with the numbers they hold. -/
theorem registry_consistent (builtinNumber : Name → Option Nat) (ops : List (Op F)) :
    let r := run builtinNumber ops
    let events := history builtinNumber ops
    (∀ n s, r.bindNumber n = some s →
      ∃ e, r.entries[s]? = some e ∧ e.number = some n ∧ r.bindName e.name = some s) ∧
    (∀ n, r.bindNumber n = (holder events n).bind r.bindName) ∧
    (∀ name, latest events name = none → r.bindName name = none) ∧
    (∀ name number func, latest events name = some (number, func) →
      ∃ i, r.entries[i]? = some ⟨name, number, func⟩ ∧ r.bindName name = slot i) ∧
    (r.registered.map (·.1)).Nodup ∧
    ∀ name shown, (name, shown) ∈ r.registered ↔
      (latest events name).isSome ∧ ∀ n, shown = some n ↔ holder events n = some name := by
  -- The invariant over the run carries all six parts; what follows only reads it.
  have h := agrees_run builtinNumber ops
  dsimp only
  generalize run builtinNumber ops = r at h ⊢
  generalize history builtinNumber ops = events at h ⊢
  refine ⟨fun n s bound => ?_, fun n => ?_, fun name none => ?_, fun name number func is => ?_,
    nodup_registered r, fun name shown => ?_⟩
  · obtain ⟨i, found, fits⟩ := Option.bind_eq_some_iff.mp bound
    obtain rfl : i = s := by
      unfold slot at fits
      split at fits
      next => exact Option.some.inj fits
      next => cases fits
    rw [h.numbers] at found
    obtain ⟨name, held, there⟩ := Option.bind_eq_some_iff.mp found
    obtain ⟨number, func, is, here⟩ := h.live name i there
    obtain ⟨f, is'⟩ := holder_latest held
    cases is.symm.trans is'
    exact ⟨_, here, rfl, Option.bind_eq_some_iff.mpr ⟨i, there, fits⟩⟩
  · unfold bindNumber bindName
    rw [h.numbers, Option.bind_assoc]
  · unfold bindName
    cases found : r.byName.lookup name with
    | none => rfl
    | some i =>
      obtain ⟨number, func, is, _⟩ := h.live name i found
      cases none.symm.trans is
  · unfold bindName
    cases found : r.byName.lookup name with
    | none => cases (h.gone name found).symm.trans is
    | some i =>
      obtain ⟨k, f, is', here⟩ := h.live name i found
      cases is.symm.trans is'
      exact ⟨i, here, rfl⟩
  · rw [mem_registered]
    constructor
    · rintro ⟨i, found, rfl⟩
      obtain ⟨number, func, is, _⟩ := h.live name i found
      exact ⟨by rw [is]; rfl, fun n => h.numberShown found⟩
    · rintro ⟨live, held⟩
      cases found : r.byName.lookup name with
      | none =>
        rw [h.gone name found] at live
        cases live
      | some i =>
        refine ⟨i, rfl, Option.ext fun n => ?_⟩
        exact (h.numberShown found).trans (held n).symm

/-- A builtin took a number over and was then given another. -/
theorem registry_consistent_taken : ∃ e : Entry Nat,
    (run (fun _ => none) [.setNumbered 5 [1] 10, .setNumbered 5 [2] 20,
      .setNumbered 6 [2] 30]).entries[1]? = some e ∧ e.number = some 6 ∧
    (run (fun _ => none) [.setNumbered 5 [1] 10, .setNumbered 5 [2] 20,
      .setNumbered 6 [2] 30]).bindName e.name = some 1 :=
  (registry_consistent (fun _ => none) [.setNumbered 5 [1] 10, .setNumbered 5 [2] 20,
    .setNumbered 6 [2] 30]).1 6 1 (by decide +kernel)

/-- Nothing is bound to the number it gave up. -/
example : (run (fun _ => none) [.setNumbered 5 [1] 10, .setNumbered 5 [2] 20,
    .setNumbered 6 [2] 30]).bindNumber 5 = none := by decide +kernel

end Registry

end Qcvm

import Mathlib.Data.List.Induction
import Qcvm.Vm.Boot

/-!
# Field unification

`map_fields` goes through the field definitions of a program in the order of their offsets, longer
ones first, and gives each a place: that of the field the VM knows under its name and width, else
that of the first definition of its name, if it has its width, else the word that the definition that
covers its start has there, else new words. Every word of the program then goes where the first
definition that covers it has it. The fields are unified soundly exactly where a definition without
new words brings in words of the table only, and where a known definition finds the words it shares
with an earlier one where the VM has them.
-/

namespace Qcvm

open Lib

/-- The words a definition of this type takes up. -/
def EvType.width (ty : EvType) : Nat := max (ty.words.getD 1) 1

/-- A definition covers a word. -/
def Def.Covers (d : Def) (w : Nat) : Prop := d.ofs ≤ w ∧ w < d.ofs + d.ty.width

instance (d : Def) (w : Nat) : Decidable (d.Covers w) := inferInstanceAs (Decidable (_ ∧ _))

/-- The entry of the table with the name and the width of a definition. -/
def FieldTable.known (t : FieldTable) (p : Program) (d : Def) : Option FieldEntry :=
  (t.get (p.stringAt d.name)).filter fun e => e.ty.words = d.ty.words

/-! ## Places -/

/-- A definition, the word its first word goes to, and whether it takes new words. -/
structure PlacedDef where
  d : Def
  place : Nat
  fresh : Bool

/-- Where a word of a placed definition goes. -/
def PlacedDef.home (q : PlacedDef) (w : Nat) : Nat := q.place + (w - q.d.ofs)

/-- The first definition that covers a word. -/
def firstAt (placed : List PlacedDef) (w : Nat) : Option PlacedDef :=
  placed.find? fun q => q.d.Covers w

/-- The first definition of a name. -/
def Program.firstNamed (p : Program) (name : List Byte) (placed : List PlacedDef) :
    Option PlacedDef :=
  placed.find? fun q => p.stringAt q.d.name = name

/-- The new words that definitions take. -/
def freshWords (placed : List PlacedDef) : Nat :=
  ((placed.filter (·.fresh)).map (·.d.ty.width)).sum

/-- The first definition of a name the VM does not have, if it has the same width. -/
def FieldTable.namesake (old : FieldTable) (p : Program) (earlier : List PlacedDef) (d : Def) :
    Option PlacedDef :=
  let name := p.stringAt d.name
  if name = [] ∨ (old.get name).isSome then none
  else (p.firstNamed name earlier).filter fun f => f.d.ty.words = d.ty.words

/-- The place of a definition behind the earlier ones. -/
def FieldTable.placeDef (old : FieldTable) (p : Program) (earlier : List PlacedDef) (d : Def) :
    PlacedDef :=
  match old.known p d with
  | some e => ⟨d, e.ofs, false⟩
  | none =>
    match old.namesake p earlier d with
    | some f => ⟨d, f.place, false⟩
    | none =>
      match firstAt earlier d.ofs with
      | some c => ⟨d, c.home d.ofs, false⟩
      | none => ⟨d, old.words + freshWords earlier, true⟩

/-- The places of definitions, one after the other. -/
def FieldTable.placeDefs (old : FieldTable) (p : Program) (defs : List Def) : List PlacedDef :=
  defs.foldl (fun earlier d => earlier ++ [old.placeDef p earlier d]) []

/-- The places of all field definitions of a program, in the order they are mapped. -/
def Program.fieldPlaces (p : Program) (old : FieldTable) : List PlacedDef :=
  old.placeDefs p (p.fieldDefs.insertionSort fieldBefore)

/-- A definition goes with the earlier ones and the fields the VM knows. -/
structure PlacedDef.Regular (old : FieldTable) (p : Program) (earlier : List PlacedDef)
    (q : PlacedDef) : Prop where
  /-- A word no earlier definition covers is new with the whole definition, or in the table. -/
  own : q.fresh = false → ∀ k < q.d.ty.width, firstAt earlier (q.d.ofs + k) = none →
    q.place + k < old.words
  /-- An earlier definition has the words of a known field where the VM has them. -/
  agrees : ∀ e ∈ old.known p q.d, ∀ k < q.d.ty.width, ∀ c ∈ firstAt earlier (q.d.ofs + k),
    c.home (q.d.ofs + k) = e.ofs + k

/-- All field definitions of a program go together, in the order they are mapped. -/
def Program.FieldsRegular (p : Program) (old : FieldTable) : Prop :=
  ∀ earlier q later, p.fieldPlaces old = earlier ++ q :: later → q.Regular old p earlier

instance (old : FieldTable) (p : Program) (earlier : List PlacedDef) (q : PlacedDef) :
    Decidable (q.Regular old p earlier) :=
  decidable_of_iff
    ((q.fresh = false → ∀ k < q.d.ty.width, firstAt earlier (q.d.ofs + k) = none →
      q.place + k < old.words) ∧
    ∀ e ∈ old.known p q.d, ∀ k < q.d.ty.width, ∀ c ∈ firstAt earlier (q.d.ofs + k),
      c.home (q.d.ofs + k) = e.ofs + k)
    ⟨fun ⟨own, agrees⟩ => ⟨own, agrees⟩, fun regular => ⟨regular.own, regular.agrees⟩⟩

/-- What holds of every split of a list holds at every index. -/
lemma forall_split_iff {α : Type} {l : List α} {P : List α → α → Prop} :
    (∀ earlier a later, l = earlier ++ a :: later → P earlier a) ↔
      ∀ i (lt : i < l.length), P (l.take i) l[i] := by
  constructor
  · intro all i lt
    refine all _ _ (l.drop (i + 1)) ?_
    rw [List.getElem_cons_drop, List.take_append_drop]
  · rintro all earlier a later rfl
    have here := all earlier.length (by simp)
    rw [List.take_left' rfl, List.getElem_append_right (Nat.le_refl _)] at here
    simpa using here

instance (p : Program) (old : FieldTable) : Decidable (p.FieldsRegular old) :=
  decidable_of_iff (∀ i (lt : i < (p.fieldPlaces old).length),
    (p.fieldPlaces old)[i].Regular old p ((p.fieldPlaces old).take i)) forall_split_iff.symm

/-- A field map and a field table unify the fields of a program with those of a core. -/
structure Core.Unified (core : Core) (p : Program) (map : FieldMap) (t : FieldTable)
    (fieldBytes : Nat) : Prop where
  defs : ∀ d ∈ p.fieldDefs, ∀ w, d.Covers w → (map.lookup w).isSome
  words : ∀ w < p.entityFields, (map.lookup w).isSome
  range : ∀ w home, map.lookup w = some home → home < t.words
  bytes : fieldBytes = 4 * t.words ∧ fieldBytes ≤ core.mem.stride
  known : ∀ d ∈ p.fieldDefs, ∀ e ∈ core.fields.known p d, ∀ k < d.ty.width,
    map.lookup (d.ofs + k) = some (e.ofs + k)
  once : ∀ home, core.fields.words ≤ home → home < t.words → ∃! w, map.lookup w = some home

/-! ## Small steps -/

lemma FieldTable.get_push (t : FieldTable) (name name' : List Byte) (ty : EvType) (ofs : Nat) :
    (t.push name ty ofs).get name'
      = (t.get name').or (if name' ≠ [] ∧ name = name' then some ⟨name, ty, ofs⟩ else none) := by
  unfold get push
  by_cases empty : name' = []
  · simp [empty]
  · rw [if_neg empty, if_neg empty, List.find?_append]
    by_cases same : name = name' <;> simp [empty, same]

lemma takeFieldWords_eq_some {capacity words u : Nat} {t t' : FieldTable}
    (e : takeFieldWords capacity t words = some (u, t')) :
    u = t.words ∧ t' = { t with words := t.words + words } := by
  unfold takeFieldWords at e
  obtain ⟨next, sum, e⟩ := Option.bind_eq_some_iff.mp e
  obtain ⟨-, rfl⟩ := checkedAdd_eq_some.mp sum
  split at e
  next =>
    cases e
    exact ⟨rfl, rfl⟩
  next => cases e

/-- Where `mapWords` sends the words of a definition. -/
lemma lookup_mapWords {ofs unified n : Nat} {map map' : FieldMap}
    (e : mapWords ofs unified n map = some map') (w : Nat) :
    map'.lookup w = (map.lookup w).or
      (if ofs ≤ w ∧ w < ofs + n then some (unified + (w - ofs)) else none) := by
  induction n generalizing map' w with
  | zero =>
    cases e
    rw [if_neg (by omega), Option.or_none]
  | succ n ih =>
    unfold mapWords at e
    obtain ⟨mid, first, e⟩ := Option.bind_eq_some_iff.mp e
    obtain ⟨word, sum, e⟩ := Option.bind_eq_some_iff.mp e
    obtain ⟨home, sum', e⟩ := Option.bind_eq_some_iff.mp e
    obtain ⟨-, rfl⟩ := checkedAdd_eq_some.mp sum
    obtain ⟨-, rfl⟩ := checkedAdd_eq_some.mp sum'
    have before := ih first
    cases e
    split
    next taken =>
      rw [before w]
      by_cases last : w = ofs + n
      · subst last
        rw [before, if_neg (by omega), Option.or_none] at taken
        rw [Option.or_of_isSome taken, Option.or_of_isSome taken]
      · by_cases inside : ofs ≤ w ∧ w < ofs + n
        · rw [if_pos inside, if_pos (by omega)]
        · rw [if_neg inside, if_neg (by omega)]
    next free =>
      rw [List.lookup_append, before w]
      by_cases last : w = ofs + n
      · subst last
        simp
      · have other : [(ofs + n, unified + n)].lookup w = none := by
          simp [List.lookup_cons, beq_eq_false_iff_ne.mpr last]
        rw [other, Option.or_none]
        by_cases inside : ofs ≤ w ∧ w < ofs + n
        · rw [if_pos inside, if_pos (by omega)]
        · rw [if_neg inside, if_neg (by omega)]

/-- What mapping one definition does: it takes the place of a field of its name and width, or that of
the definition that covers it, or new words. -/
lemma mapField_cases {capacity : Nat} {p : Program} {d : Def} {t t' : FieldTable}
    {map map' : FieldMap} (e : mapField capacity p d t map = some (t', map')) :
    ∃ u, mapWords d.ofs u d.ty.width map = some map' ∧
      ((∃ entry, t.known p d = some entry ∧ u = entry.ofs ∧ t' = t) ∨
        t.known p d = none ∧
          (map.lookup d.ofs = some u ∧ t' = t.push (p.stringAt d.name) d.ty u ∨
            map.lookup d.ofs = none ∧ u = t.words ∧
              t' = { t with words := t.words + d.ty.width }.push (p.stringAt d.name) d.ty u)) := by
  unfold mapField at e
  dsimp only at e
  split at e
  next existing known =>
    obtain ⟨⟨_, _⟩, same, e⟩ := Option.bind_eq_some_iff.mp e
    cases same
    obtain ⟨_, words, e⟩ := Option.bind_eq_some_iff.mp e
    cases e
    exact ⟨_, words, .inl ⟨existing, known, rfl, rfl⟩⟩
  next unknown =>
    split at e
    next u covered =>
      obtain ⟨⟨_, _⟩, same, e⟩ := Option.bind_eq_some_iff.mp e
      cases same
      obtain ⟨_, words, e⟩ := Option.bind_eq_some_iff.mp e
      cases e
      exact ⟨u, words, .inr ⟨unknown, .inl ⟨covered, rfl⟩⟩⟩
    next free =>
      obtain ⟨⟨u, last⟩, found, e⟩ := Option.bind_eq_some_iff.mp e
      obtain ⟨⟨_, mid⟩, taken, same⟩ := Option.map_eq_some_iff.mp found
      cases same
      obtain ⟨rfl, rfl⟩ := takeFieldWords_eq_some taken
      obtain ⟨_, words, e⟩ := Option.bind_eq_some_iff.mp e
      cases e
      exact ⟨_, words, .inr ⟨unknown, .inr ⟨free, rfl, rfl⟩⟩⟩

/-! ## Mapping places the definitions -/

section

variable {old t t' : FieldTable} {p : Program} {placed earlier later : List PlacedDef}
  {map map' : FieldMap} {d : Def} {q : PlacedDef}

/-- Placing a definition keeps it. -/
@[simp] lemma placeDef_d : (old.placeDef p earlier d).d = d := by
  unfold FieldTable.placeDef
  split
  · rfl
  · split
    · rfl
    · split <;> rfl

/-- The last definition is placed behind the others. -/
lemma placeDefs_concat (defs : List Def) :
    old.placeDefs p (defs ++ [d])
      = old.placeDefs p defs ++ [old.placeDef p (old.placeDefs p defs) d] := by
  unfold FieldTable.placeDefs
  rw [List.foldl_append]
  rfl

/-- Placing keeps the definitions and their order. -/
lemma map_d_placeDefs (defs : List Def) : (old.placeDefs p defs).map (·.d) = defs := by
  induction defs using List.reverseRecOn with
  | nil => rfl
  | append_singleton defs d ih =>
    rw [placeDefs_concat, List.map_append, ih, List.map_singleton, placeDef_d]

/-- Every definition is placed behind the earlier ones. -/
lemma placeDefs_split {defs : List Def} (split : old.placeDefs p defs = earlier ++ q :: later) :
    q = old.placeDef p earlier q.d := by
  induction defs using List.reverseRecOn generalizing later with
  | nil =>
    have length := congrArg List.length split
    rw [List.length_append, List.length_cons] at length
    cases length
  | append_singleton defs d ih =>
    rw [placeDefs_concat] at split
    rcases List.eq_nil_or_concat later with rfl | ⟨later, last, rfl⟩
    · obtain ⟨rfl, same⟩ := List.append_inj' split rfl
      cases same
      rw [placeDef_d]
    · rw [List.concat_eq_append, ← List.cons_append, ← List.append_assoc] at split
      exact ih (List.append_inj' split rfl).1

/-- The first definition that covers a word, with one more definition. -/
lemma firstAt_concat (w : Nat) :
    firstAt (placed ++ [q]) w = (firstAt placed w).or (if q.d.Covers w then some q else none) := by
  unfold firstAt
  rw [List.find?_append]
  by_cases c : q.d.Covers w <;> simp [c]

/-- The first definition of a name, with one more definition. -/
lemma firstNamed_concat (name : List Byte) :
    p.firstNamed name (placed ++ [q])
      = (p.firstNamed name placed).or (if p.stringAt q.d.name = name then some q else none) := by
  unfold Program.firstNamed
  rw [List.find?_append]
  by_cases same : p.stringAt q.d.name = name <;> simp [same]

/-- The new words, with one more definition. -/
lemma freshWords_concat :
    freshWords (placed ++ [q]) = freshWords placed + (if q.fresh then q.d.ty.width else 0) := by
  unfold freshWords
  rw [List.filter_append, List.map_append, List.sum_append]
  cases fresh : q.fresh <;> simp [fresh]

/-- The entry that a new name gets. -/
def Program.newEntry (p : Program) (placed : List PlacedDef) (name : List Byte) :
    Option FieldEntry :=
  if name = [] then none
  else (p.firstNamed name placed).map fun q => ⟨name, q.d.ty, q.place⟩

/-- What a map and a table hold after some definitions of a program are mapped. -/
structure Placing (old : FieldTable) (p : Program) (placed : List PlacedDef) (t : FieldTable)
    (map : FieldMap) : Prop where
  words : t.words = old.words + freshWords placed
  names : ∀ name, t.get name = (old.get name).or (p.newEntry placed name)
  homes : ∀ w, map.lookup w = (firstAt placed w).map (·.home w)

/-- Before the first definition the map is empty and the table is the old one. -/
lemma placing_start : Placing old p [] old [] where
  words := rfl
  names name := by
    unfold Program.newEntry Program.firstNamed
    rw [List.find?_nil, Option.map_none, ite_self, Option.or_none]
  homes _ := rfl

/-- The table knows what the old one knows, and the namesakes. -/
lemma Placing.known (h : Placing old p placed t map) :
    t.known p d = (old.known p d).or
      ((old.namesake p placed d).map fun f => ⟨p.stringAt d.name, f.d.ty, f.place⟩) := by
  unfold FieldTable.known FieldTable.namesake
  rw [h.names, Program.newEntry]
  dsimp only
  cases before : old.get (p.stringAt d.name) with
  | some e => simp
  | none =>
    by_cases empty : p.stringAt d.name = []
    · simp [empty]
    · rw [Option.none_or, if_neg empty, if_neg (by simp [empty]), Option.filter_none, Option.none_or]
      cases p.firstNamed (p.stringAt d.name) placed with
      | none => rfl
      | some f =>
        by_cases wide : f.d.ty.words = d.ty.words <;> simp [Option.filter_some, wide]

/-- The table after a definition that has no new name. -/
lemma Placing.names_skip (h : Placing old p placed t map) (there : (t.known p q.d).isSome)
    (name : List Byte) : t.get name = (old.get name).or (p.newEntry (placed ++ [q]) name) := by
  rw [h.names, Program.newEntry, Program.newEntry, firstNamed_concat]
  by_cases same : p.stringAt q.d.name = name
  · obtain ⟨e, known⟩ := Option.isSome_iff_exists.mp there
    obtain ⟨found, -⟩ := Option.filter_eq_some_iff.mp known
    rw [same, h.names, Program.newEntry] at found
    cases before : old.get name with
    | some e' => rw [Option.some_or, Option.some_or]
    | none =>
      rw [before, Option.none_or] at found
      by_cases empty : name = []
      · rw [if_pos empty, if_pos empty]
      · rw [if_neg empty] at found
        obtain ⟨f, first, -⟩ := Option.map_eq_some_iff.mp found
        rw [first, Option.some_or]
  · rw [if_neg same, Option.or_none]

/-- The table after a definition whose name it gets. -/
lemma Placing.names_push (h : Placing old p placed t map) (name : List Byte) :
    (t.push (p.stringAt q.d.name) q.d.ty q.place).get name
      = (old.get name).or (p.newEntry (placed ++ [q]) name) := by
  rw [FieldTable.get_push, h.names, Program.newEntry, Program.newEntry, firstNamed_concat,
    Option.or_assoc]
  congr 1
  by_cases empty : name = []
  · simp [empty]
  · rw [if_neg empty, if_neg empty]
    cases p.firstNamed name placed with
    | some f => rfl
    | none =>
      by_cases same : p.stringAt q.d.name = name <;> simp [same, empty]

/-- A definition without a new name stands where the table knows it. -/
lemma Placing.place_known (h : Placing old p placed t map) {e : FieldEntry}
    (known : t.known p d = some e) :
    (old.placeDef p placed d).place = e.ofs ∧ (old.placeDef p placed d).fresh = false := by
  rw [h.known] at known
  unfold FieldTable.placeDef
  cases before : old.known p d with
  | some e' =>
    rw [before, Option.some_or] at known
    cases known
    exact ⟨rfl, rfl⟩
  | none =>
    rw [before, Option.none_or] at known
    obtain ⟨f, same, rfl⟩ := Option.map_eq_some_iff.mp known
    rw [same]
    exact ⟨rfl, rfl⟩

/-- A definition the table does not know stands where its first word does, or at new words. -/
lemma Placing.place_unknown (h : Placing old p placed t map) (unknown : t.known p d = none) :
    (∀ u, map.lookup d.ofs = some u → (old.placeDef p placed d).place = u ∧
      (old.placeDef p placed d).fresh = false) ∧
    (map.lookup d.ofs = none → (old.placeDef p placed d).place = t.words ∧
      (old.placeDef p placed d).fresh = true) := by
  rw [h.known, Option.or_eq_none_iff, Option.map_eq_none_iff] at unknown
  obtain ⟨before, same⟩ := unknown
  unfold FieldTable.placeDef
  rw [before, same, h.homes, h.words]
  dsimp only
  cases firstAt placed d.ofs with
  | some c => exact ⟨fun u e => ⟨Option.some.inj e, rfl⟩, nofun⟩
  | none => exact ⟨nofun, fun _ => ⟨rfl, rfl⟩⟩

/-- Mapping a definition places it behind the definitions mapped before. -/
lemma Placing.step (h : Placing old p placed t map) {capacity : Nat}
    (e : mapField capacity p d t map = some (t', map')) :
    Placing old p (placed ++ [old.placeDef p placed d]) t' map' := by
  obtain ⟨u, words, ends⟩ := mapField_cases e
  have homes (same : (old.placeDef p placed d).place = u) (w : Nat) : map'.lookup w =
      (firstAt (placed ++ [old.placeDef p placed d]) w).map (·.home w) := by
    rw [lookup_mapWords words, h.homes, firstAt_concat, Option.map_or, placeDef_d]
    congr 1
    by_cases c : d.Covers w
    · rw [if_pos c, if_pos (show d.ofs ≤ w ∧ w < d.ofs + d.ty.width from c), Option.map_some,
        PlacedDef.home, same, placeDef_d]
    · rw [if_neg c, if_neg (show ¬(d.ofs ≤ w ∧ w < d.ofs + d.ty.width) from c), Option.map_none]
  have push (same : (old.placeDef p placed d).place = u) (name : List Byte) :
      (t.push (p.stringAt d.name) d.ty u).get name =
        (old.get name).or (p.newEntry (placed ++ [old.placeDef p placed d]) name) := by
    have names := h.names_push (q := old.placeDef p placed d) name
    rwa [placeDef_d, same] at names
  rcases ends with ⟨entry, known, rfl, rfl⟩ | ⟨unknown, ⟨taken, rfl⟩ | ⟨free, rfl, rfl⟩⟩
  · obtain ⟨same, old⟩ := h.place_known known
    refine ⟨?_, h.names_skip ?_, homes same⟩
    · rw [freshWords_concat, old, h.words]
      rfl
    · rw [placeDef_d, known]
      rfl
  · obtain ⟨same, old⟩ := (h.place_unknown unknown).1 u taken
    refine ⟨?_, push same, homes same⟩
    rw [freshWords_concat, old]
    exact h.words
  · obtain ⟨same, new⟩ := (h.place_unknown unknown).2 free
    refine ⟨?_, push same, homes same⟩
    rw [freshWords_concat, new, placeDef_d, if_pos rfl, ← Nat.add_assoc, ← h.words]
    rfl

/-- Mapping all definitions places them. -/
lemma Placing.run {capacity : Nat} (defs rest : List Def)
    (h : Placing old p (old.placeDefs p defs) t map)
    (e : rest.foldlM (fun (t, map) d => mapField capacity p d t map) (t, map) = some (t', map')) :
    Placing old p (old.placeDefs p (defs ++ rest)) t' map' := by
  induction rest generalizing defs t map with
  | nil =>
    cases e
    rw [List.append_nil]
    exact h
  | cons d rest ih =>
    rw [List.foldlM_cons] at e
    obtain ⟨⟨t₁, map₁⟩, first, e⟩ := Option.bind_eq_some_iff.mp e
    have next := h.step first
    rw [← placeDefs_concat] at next
    rw [List.append_cons]
    exact ih _ next e

/-! ## New words -/

/-- A word is first covered by the definition behind those that do not cover it. -/
lemma firstAt_split {w : Nat} :
    firstAt placed w = some q ↔ ∃ earlier later, placed = earlier ++ q :: later ∧
      q.d.Covers w ∧ firstAt earlier w = none := by
  unfold firstAt
  rw [List.find?_eq_some_iff_append]
  constructor
  · rintro ⟨covers, earlier, later, split, none⟩
    refine ⟨earlier, later, split, of_decide_eq_true covers, ?_⟩
    rw [List.find?_eq_none]
    intro c mem
    simpa using none c mem
  · rintro ⟨earlier, later, split, covers, none⟩
    refine ⟨decide_eq_true covers, earlier, later, split, fun c mem => ?_⟩
    simpa using List.find?_eq_none.mp none c mem

/-- More definitions behind do not change what covers a word first. -/
lemma firstAt_append {w : Nat} (first : firstAt earlier w = some q) :
    firstAt (earlier ++ later) w = some q := by
  unfold firstAt at first ⊢
  rw [List.find?_append, first, Option.some_or]

/-- Definitions take no fewer new words than the earlier ones. -/
lemma freshWords_append : freshWords (earlier ++ later) = freshWords earlier + freshWords later := by
  unfold freshWords
  rw [List.filter_append, List.map_append, List.sum_append]

/-- Definitions are placed in the order they are mapped. -/
def Sorted (placed : List PlacedDef) : Prop := placed.Pairwise fun c q => c.d.ofs ≤ q.d.ofs

/-- A definition with new words stands behind all new words before it. -/
lemma fresh_place {defs : List Def} (split : old.placeDefs p defs = earlier ++ q :: later)
    (fresh : q.fresh = true) :
    q.place = old.words + freshWords earlier ∧ firstAt earlier q.d.ofs = none := by
  rw [placeDefs_split split] at fresh
  rw [placeDefs_split split, placeDef_d]
  unfold FieldTable.placeDef at fresh ⊢
  split at fresh
  next => cases fresh
  next unknown =>
    split at fresh
    next => cases fresh
    next alone =>
      split at fresh
      next => cases fresh
      next free => exact ⟨rfl, free⟩

/-- A definition with new words is the first to cover all its words. -/
lemma fresh_first {defs : List Def} (split : old.placeDefs p defs = earlier ++ q :: later)
    (sorted : Sorted (old.placeDefs p defs)) (fresh : q.fresh = true) {w : Nat}
    (covers : q.d.Covers w) : firstAt (old.placeDefs p defs) w = some q := by
  refine firstAt_split.mpr ⟨earlier, later, split, covers, ?_⟩
  have free := (fresh_place split fresh).2
  unfold firstAt at free ⊢
  rw [List.find?_eq_none] at free ⊢
  intro c mem reaches
  obtain ⟨lo, hi⟩ := of_decide_eq_true reaches
  rw [split] at sorted
  have before := (List.pairwise_append.mp sorted).2.2 c mem q List.mem_cons_self
  obtain ⟨lo', hi'⟩ := covers
  exact free c mem (decide_eq_true ⟨before, by omega⟩)

/-- Words of definitions with new words go to new words. -/
lemma fresh_range {defs : List Def} {w : Nat} (first : firstAt (old.placeDefs p defs) w = some q)
    (fresh : q.fresh = true) :
    old.words ≤ q.home w ∧ q.home w < old.words + freshWords (old.placeDefs p defs) := by
  obtain ⟨earlier, later, split, ⟨lo, hi⟩, -⟩ := firstAt_split.mp first
  have place := (fresh_place split fresh).1
  rw [split, List.append_cons, freshWords_append, freshWords_concat, if_pos fresh]
  unfold PlacedDef.home
  omega

/-- Different words of definitions with new words go to different words. -/
lemma fresh_apart {defs : List Def} {w w' : Nat} {q' : PlacedDef}
    (first : firstAt (old.placeDefs p defs) w = some q) (fresh : q.fresh = true)
    (first' : firstAt (old.placeDefs p defs) w' = some q') (fresh' : q'.fresh = true)
    (same : q.home w = q'.home w') : w = w' := by
  obtain ⟨earlier, later, split, ⟨lo, hi⟩, -⟩ := firstAt_split.mp first
  obtain ⟨earlier', later', split', ⟨lo', hi'⟩, -⟩ := firstAt_split.mp first'
  have place := (fresh_place split fresh).1
  have place' := (fresh_place split' fresh').1
  unfold PlacedDef.home at same
  rcases List.append_eq_append_iff.mp (split.symm.trans split') with
    ⟨mid, rfl, rest⟩ | ⟨mid, rfl, rest⟩
  · cases mid with
    | nil =>
      cases rest
      omega
    | cons c mid =>
      cases rest
      rw [List.append_cons, freshWords_append, freshWords_concat, if_pos fresh] at place'
      omega
  · cases mid with
    | nil =>
      cases rest
      omega
    | cons c mid =>
      cases rest
      rw [List.append_cons, freshWords_append, freshWords_concat, if_pos fresh'] at place
      omega

/-- A word goes to every new word of the definitions. -/
lemma fresh_onto {defs : List Def} (sorted : Sorted (old.placeDefs p defs)) {home : Nat}
    (lo : old.words ≤ home) (hi : home < old.words + freshWords (old.placeDefs p defs)) :
    ∃ w q, firstAt (old.placeDefs p defs) w = some q ∧ q.fresh = true ∧ q.home w = home := by
  induction defs using List.reverseRecOn with
  | nil => exact absurd hi (Nat.not_lt.mpr lo)
  | append_singleton defs d ih =>
    by_cases before : home < old.words + freshWords (old.placeDefs p defs)
    · rw [placeDefs_concat] at sorted ⊢
      obtain ⟨w, q, first, fresh, same⟩ := ih (List.pairwise_append.mp sorted).1 before
      exact ⟨w, q, firstAt_append first, fresh, same⟩
    · have split := @placeDefs_concat old p d defs
      rw [split, freshWords_concat] at hi
      cases fresh : (old.placeDef p (old.placeDefs p defs) d).fresh with
      | false =>
        rw [fresh] at hi
        exact absurd hi before
      | true =>
        rw [fresh, if_pos rfl] at hi
        have place := (fresh_place split fresh).1
        refine ⟨d.ofs + (home - (old.words + freshWords (old.placeDefs p defs))), _,
          fresh_first split sorted fresh ⟨?_, ?_⟩, fresh, ?_⟩
        · rw [placeDef_d]
          omega
        · rw [placeDef_d] at hi ⊢
          omega
        · rw [PlacedDef.home, place, placeDef_d]
          omega

/-! ## Loose words -/

/-- A map sends more words, each to a new word of its own, and every new word is taken. -/
structure Extended (t : FieldTable) (map : FieldMap) (t' : FieldTable) (map' : FieldMap) :
    Prop where
  le : t.words ≤ t'.words
  kept : ∀ w home, map.lookup w = some home → map'.lookup w = some home
  new : ∀ w home, map'.lookup w = some home →
    map.lookup w = some home ∨ t.words ≤ home ∧ home < t'.words
  once : ∀ home, t.words ≤ home → home < t'.words →
    ∃! w, map.lookup w = none ∧ map'.lookup w = some home

/-- A map extends itself. -/
lemma Extended.refl : Extended t map t map where
  le := Nat.le_refl _
  kept _ _ e := e
  new _ _ e := .inl e
  once _ lo hi := absurd hi (Nat.not_lt.mpr lo)

/-- Extensions compose. -/
lemma Extended.trans {t₁ : FieldTable} {map₁ : FieldMap} (h : Extended t map t₁ map₁)
    (h' : Extended t₁ map₁ t' map') : Extended t map t' map' := by
  have le := h.le
  have le' := h'.le
  refine ⟨by omega, fun w home e => h'.kept w home (h.kept w home e), fun w home e => ?_,
    fun home lo hi => ?_⟩
  · rcases h'.new w home e with e | ⟨lo, hi⟩
    · rcases h.new w home e with e | ⟨lo, hi⟩
      · exact .inl e
      · exact .inr ⟨lo, by omega⟩
    · exact .inr ⟨by omega, hi⟩
  · by_cases first : home < t₁.words
    · obtain ⟨w, ⟨free, e⟩, only⟩ := h.once home lo first
      refine ⟨w, ⟨free, h'.kept w home e⟩, fun v ⟨free', e'⟩ => only v ⟨free', ?_⟩⟩
      rcases h'.new v home e' with e' | ⟨past, -⟩
      · exact e'
      · omega
    · obtain ⟨w, ⟨free, e⟩, only⟩ := h'.once home (by omega) hi
      have start : map.lookup w = none := by
        by_contra taken
        obtain ⟨home', e'⟩ := Option.ne_none_iff_exists'.mp taken
        rw [h.kept w home' e'] at free
        cases free
      refine ⟨w, ⟨start, e⟩, fun v ⟨free', e'⟩ => only v ⟨?_, e'⟩⟩
      by_contra taken
      obtain ⟨home', mid⟩ := Option.ne_none_iff_exists'.mp taken
      cases (h'.kept v home' mid).symm.trans e'
      rcases h.new v home mid with before | ⟨-, past⟩
      · cases free'.symm.trans before
      · omega

/-- A word no definition covers. -/
lemma extended_mapLoose {capacity w : Nat} (e : mapLoose capacity w t map = some (t', map')) :
    Extended t map t' map' ∧ (map'.lookup w).isSome := by
  unfold mapLoose at e
  split at e
  next there =>
    cases e
    exact ⟨.refl, there⟩
  next free =>
    obtain ⟨⟨u, last⟩, taken, same⟩ := Option.map_eq_some_iff.mp e
    cases same
    obtain ⟨rfl, rfl⟩ := takeFieldWords_eq_some taken
    have free : map.lookup w = none := Option.not_isSome_iff_eq_none.mp free
    have here : (map ++ [(w, t.words)]).lookup w = some t.words := by
      rw [List.lookup_append, free, Option.none_or]
      simp
    have there {v : Nat} (other : v ≠ w) : (map ++ [(w, t.words)]).lookup v = map.lookup v := by
      rw [List.lookup_append]
      simp [List.lookup_cons, beq_eq_false_iff_ne.mpr other]
    refine ⟨⟨Nat.le_succ _, fun v home e => ?_, fun v home e => ?_, fun home lo hi => ?_⟩, ?_⟩
    · rw [List.lookup_append, e, Option.some_or]
    · by_cases same : v = w
      · subst same
        cases here.symm.trans e
        exact .inr ⟨Nat.le_refl _, Nat.lt_succ_self _⟩
      · exact .inl ((there same).symm.trans e)
    · cases Nat.le_antisymm (Nat.le_of_lt_succ hi) lo
      refine ⟨w, ⟨free, here⟩, fun v ⟨free', e⟩ => ?_⟩
      by_contra other
      rw [there other, free'] at e
      cases e
    · rw [here]
      rfl

/-- All words below the number of entity fields. -/
lemma extended_loose {capacity : Nat} (words : List Nat)
    (e : words.foldlM (fun (t, map) w => mapLoose capacity w t map) (t, map) = some (t', map')) :
    Extended t map t' map' ∧ ∀ w ∈ words, (map'.lookup w).isSome := by
  induction words generalizing t map with
  | nil =>
    cases e
    exact ⟨.refl, nofun⟩
  | cons w words ih =>
    rw [List.foldlM_cons] at e
    obtain ⟨⟨t₁, map₁⟩, first, rest⟩ := Option.bind_eq_some_iff.mp e
    obtain ⟨step, here⟩ := extended_mapLoose first
    obtain ⟨run, all⟩ := ih rest
    refine ⟨step.trans run, fun v mem => ?_⟩
    rcases List.mem_cons.mp mem with rfl | mem
    · obtain ⟨home, e⟩ := Option.isSome_iff_exists.mp here
      rw [run.kept v home e]
      rfl
    · exact all v mem

end

/-! ## Soundness -/

instance : Std.Total fieldBefore := ⟨fun a b => by unfold fieldBefore; omega⟩

instance : IsTrans Def fieldBefore := ⟨fun a b c => by unfold fieldBefore; omega⟩

section

variable {p : Program} {old t t' : FieldTable} {map map' : FieldMap} {d : Def} {q : PlacedDef}

/-- The definitions of a program are placed in the order of their offsets. -/
lemma sorted_fieldPlaces : Sorted (p.fieldPlaces old) := by
  have sorted := List.pairwise_insertionSort fieldBefore p.fieldDefs
  rw [← @map_d_placeDefs old p (p.fieldDefs.insertionSort fieldBefore),
    List.pairwise_map] at sorted
  refine sorted.imp fun {c q} before => ?_
  rcases before with lt | ⟨eq, -⟩
  · exact Nat.le_of_lt lt
  · exact Nat.le_of_eq eq

/-- The placed definitions are those of the program. -/
lemma mem_fieldPlaces : (∃ q ∈ p.fieldPlaces old, q.d = d) ↔ d ∈ p.fieldDefs := by
  have all := @map_d_placeDefs old p (p.fieldDefs.insertionSort fieldBefore)
  rw [← List.mem_insertionSort fieldBefore, ← all, List.mem_map]
  rfl

/-- A definition of the program has its place behind some others. -/
lemma fieldPlaces_split (mem : d ∈ p.fieldDefs) :
    ∃ earlier q later, p.fieldPlaces old = earlier ++ q :: later ∧ q.d = d := by
  obtain ⟨q, placed, same⟩ := (@mem_fieldPlaces p old d).mpr mem
  obtain ⟨earlier, later, split⟩ := List.append_of_mem placed
  exact ⟨earlier, q, later, split, same⟩

/-- A known definition stands where the VM has the field. -/
lemma placeDef_known {earlier : List PlacedDef} {e : FieldEntry} (known : old.known p d = some e) :
    (old.placeDef p earlier d).place = e.ofs := by
  unfold FieldTable.placeDef
  rw [known]

/-- The words of definitions that go together stay in the table. -/
lemma regular_home (regular : p.FieldsRegular old) {w : Nat}
    (first : firstAt (p.fieldPlaces old) w = some q) (stays : q.fresh = false) :
    q.home w < old.words := by
  obtain ⟨earlier, later, split, ⟨lo, hi⟩, none⟩ := firstAt_split.mp first
  have own := (regular earlier q later split).own stays (w - q.d.ofs) (by omega)
  rw [Nat.add_sub_cancel' lo] at own
  exact own none

/-- The words of a known definition go where the VM has the field. -/
lemma regular_known (regular : p.FieldsRegular old) (mem : d ∈ p.fieldDefs) {e : FieldEntry}
    (known : old.known p d = some e) {k : Nat} (lt : k < d.ty.width) :
    ∃ c, firstAt (p.fieldPlaces old) (d.ofs + k) = some c ∧ c.home (d.ofs + k) = e.ofs + k := by
  obtain ⟨earlier, q, later, split, rfl⟩ := @fieldPlaces_split p old d mem
  cases first : firstAt earlier (q.d.ofs + k) with
  | some c =>
    refine ⟨c, ?_, (regular earlier q later split).agrees e known k lt c first⟩
    rw [split]
    exact firstAt_append first
  | none =>
    refine ⟨q, firstAt_split.mpr ⟨earlier, later, split, ⟨by omega, by omega⟩, first⟩, ?_⟩
    have place : q.place = e.ofs := by
      rw [placeDefs_split split, placeDef_known known]
    rw [PlacedDef.home, place]
    omega

/-- Definitions that go together and loose words share no new word, and take all of them. -/
lemma regular_once (regular : p.FieldsRegular old) (h : Placing old p (p.fieldPlaces old) t map)
    (loose : Extended t map t' map') {home : Nat} (lo : old.words ≤ home) (hi : home < t'.words) :
    ∃! w, map'.lookup w = some home := by
  -- A word that goes to a new word is loose, or a definition with new words is the first there.
  have owner {v : Nat} (e : map.lookup v = some home) : home < t.words ∧
      ∃ c, firstAt (p.fieldPlaces old) v = some c ∧ c.fresh = true ∧ c.home v = home := by
    rw [h.homes] at e
    obtain ⟨c, first, same⟩ := Option.map_eq_some_iff.mp e
    cases fresh : c.fresh with
    | false =>
      have stays := regular_home regular first fresh
      omega
    | true =>
      have range := (fresh_range first fresh).2
      rw [same] at range
      rw [h.words]
      exact ⟨range, c, first, fresh, same⟩
  by_cases new : home < t.words
  · rw [h.words] at new
    obtain ⟨w, q, first, fresh, same⟩ := fresh_onto sorted_fieldPlaces lo new
    have here : map.lookup w = some home := by
      rw [h.homes, show firstAt (p.fieldPlaces old) w = some q from first, Option.map_some, same]
    refine ⟨w, loose.kept w home here, fun v e => ?_⟩
    rcases loose.new v home e with e | ⟨past, -⟩
    · obtain ⟨-, c, first', fresh', same'⟩ := owner e
      exact fresh_apart first' fresh' first fresh (same'.trans same.symm)
    · rw [h.words] at past
      exact absurd new (Nat.not_lt.mpr past)
  · obtain ⟨w, ⟨-, e⟩, only⟩ := loose.once home (Nat.le_of_not_lt new) hi
    refine ⟨w, e, fun v e' => only v ⟨?_, e'⟩⟩
    by_contra taken
    obtain ⟨home', mid⟩ := Option.ne_none_iff_exists'.mp taken
    cases (loose.kept v home' mid).symm.trans e'
    exact new (owner mid).1

/-- Where every new word has one source word, a word of a definition without new words stays in the
table. -/
lemma once_home (h : Placing old p (p.fieldPlaces old) t map) (loose : Extended t map t' map')
    (range : ∀ w home, map'.lookup w = some home → home < t'.words)
    (once : ∀ home, old.words ≤ home → home < t'.words → ∃! w, map'.lookup w = some home) {w : Nat}
    (first : firstAt (p.fieldPlaces old) w = some q) (stays : q.fresh = false) :
    q.home w < old.words := by
  by_contra past
  have mid : map.lookup w = some (q.home w) := by
    rw [h.homes, first, Option.map_some]
  have here := loose.kept w _ mid
  have lo := Nat.le_of_not_lt past
  have hi := range w _ here
  obtain ⟨v, -, only⟩ := once _ lo hi
  by_cases new : q.home w < t.words
  · rw [h.words] at new
    obtain ⟨w', q', first', fresh', same⟩ := fresh_onto sorted_fieldPlaces lo new
    have here' : map'.lookup w' = some (q.home w) := by
      refine loose.kept w' _ ?_
      rw [h.homes, show firstAt (p.fieldPlaces old) w' = some q' from first', Option.map_some, same]
    cases (only w here).trans (only w' here').symm
    cases first.symm.trans first'
    cases stays.symm.trans fresh'
  · obtain ⟨w', ⟨free, here'⟩, -⟩ := loose.once _ (Nat.le_of_not_lt new) hi
    cases (only w here).trans (only w' here').symm
    cases mid.symm.trans free

end

/-- Field unification is sound exactly for programs whose field definitions go together with each
other and with the fields the VM knows. -/
theorem fields_unified (core : Core) (p : Program) (layout : core.Layout) (map : FieldMap)
    (t : FieldTable) (fieldBytes : Nat) (e : mapFields core p = some (map, t, fieldBytes)) :
    core.Unified p map t fieldBytes ↔ p.FieldsRegular core.fields := by
  obtain ⟨wide, bytes⟩ := Core.mapFields_fits layout e
  unfold mapFields at e
  obtain ⟨⟨t₁, map₁⟩, defs, e⟩ := Option.bind_eq_some_iff.mp e
  obtain ⟨⟨t₂, map₂⟩, rest, e⟩ := Option.bind_eq_some_iff.mp e
  obtain ⟨_, -, e⟩ := Option.bind_eq_some_iff.mp e
  cases e
  have places : Placing core.fields p (p.fieldPlaces core.fields) t₁ map₁ :=
    Placing.run [] _ placing_start defs
  obtain ⟨loose, words⟩ := extended_loose _ rest
  have lookup {w : Nat} {c : PlacedDef}
      (first : firstAt (p.fieldPlaces core.fields) w = some c) :
      map.lookup w = some (c.home w) := by
    refine loose.kept w _ ?_
    rw [places.homes, first, Option.map_some]
  -- From the map to the definitions: a fresh word's home is met once, a known one's is the table's.
  constructor
  · intro unified earlier q later split
    refine ⟨fun stays k lt none => ?_, fun e known k lt c first => ?_⟩
    · have first : firstAt (p.fieldPlaces core.fields) (q.d.ofs + k) = some q :=
        firstAt_split.mpr ⟨earlier, later, split, ⟨by omega, by omega⟩, none⟩
      have home := once_home places loose unified.range unified.once first stays
      rw [PlacedDef.home, Nat.add_sub_cancel_left] at home
      exact home
    · have mem : q ∈ p.fieldPlaces core.fields := by
        rw [split]
        exact List.mem_append_right _ List.mem_cons_self
      have there := unified.known q.d (mem_fieldPlaces.mp ⟨q, mem, rfl⟩) e known k lt
      rw [lookup (by rw [split]; exact firstAt_append first)] at there
      exact Option.some.inj there
  · intro regular
    exact
      { defs := fun d mem w covers => by
          obtain ⟨earlier, q, later, split, rfl⟩ := @fieldPlaces_split _ core.fields _ mem
          have covered : (firstAt (p.fieldPlaces core.fields) w).isSome := by
            unfold firstAt
            rw [List.find?_isSome]
            exact ⟨q, by rw [split]; exact List.mem_append_right _ List.mem_cons_self,
              decide_eq_true covers⟩
          obtain ⟨c, first⟩ := Option.isSome_iff_exists.mp covered
          rw [lookup first]
          rfl
        words := fun w lt => words w (List.mem_range.mpr lt)
        range := fun w home there => by
          rcases loose.new w home there with mid | ⟨-, hi⟩
          · rw [places.homes] at mid
            obtain ⟨c, first, rfl⟩ := Option.map_eq_some_iff.mp mid
            have le := loose.le
            have more := places.words
            cases fresh : c.fresh with
            | false =>
              have stays := regular_home regular first fresh
              omega
            | true =>
              have range := (fresh_range first fresh).2
              rw [show core.fields.placeDefs p (p.fieldDefs.insertionSort fieldBefore)
                = p.fieldPlaces core.fields from rfl, ← more] at range
              omega
          · exact hi
        bytes := ⟨bytes, by omega⟩
        known := fun d mem e known k lt => by
          obtain ⟨c, first, home⟩ := regular_known regular mem known lt
          rw [lookup first, home]
        once := fun home lo hi => regular_once regular places loose lo hi }

/-- A program with two vector fields, one of which starts in the last word of the other. -/
def Asm.twoVectors : Asm where
  statements := [⟨0, 0, 0, 0, none⟩]
  fieldDefs := [⟨3, 0, 1⟩, ⟨3, 2, 3⟩]
  globals := [0]
  strings := [0, 97, 0, 98, 0]
  entityFields := 5

/-- The same fields, a vector of its own with a component, and a word without a definition. -/
def Asm.moreVectors : Asm where
  statements := [⟨0, 0, 0, 0, none⟩]
  fieldDefs := [⟨3, 0, 1⟩, ⟨3, 2, 3⟩, ⟨2, 7, 7⟩, ⟨3, 5, 5⟩]
  globals := [0]
  strings := [0, 97, 0, 98, 0, 99, 0, 99, 120, 0]
  entityFields := 9

/-- The shared words of the known vectors agree, and the other definitions get new words. -/
theorem fields_unified_moreVectors : ∃ vm l map t fieldBytes,
    Asm.twoVectors.boot .none .menu = some vm ∧ Asm.moreVectors.load = some l ∧
    mapFields vm.core l.program = some (map, t, fieldBytes) ∧
    vm.core.Unified l.program map t fieldBytes := by
  have test : (Asm.twoVectors.boot .none .menu).any (fun vm => Asm.moreVectors.load.any fun l =>
      (mapFields vm.core l.program).isSome &&
        decide (l.program.FieldsRegular vm.core.fields)) = true := by decide +kernel
  obtain ⟨vm, boot, test⟩ := (Option.any_eq_true _ _).mp test
  obtain ⟨l, load, test⟩ := (Option.any_eq_true _ _).mp test
  obtain ⟨some, regular⟩ := Bool.and_eq_true_iff.mp test
  obtain ⟨⟨map, t, fieldBytes⟩, mapped⟩ := Option.isSome_iff_exists.mp some
  exact ⟨vm, l, map, t, fieldBytes, boot, load, mapped,
    (fields_unified _ _ (Core.layout_buildCore (built_of_boot boot)) _ _ _ mapped).mpr
      (of_decide_eq_true regular)⟩

/-- A program with a vector field that starts in the last word of another. -/
def Asm.overlapping : Asm where
  statements := [⟨0, 0, 0, 0, none⟩]
  fieldDefs := [⟨3, 0, 1⟩, ⟨3, 2, 3⟩, ⟨2, 10, 5⟩]
  globals := [0]
  strings := [0, 97, 0, 98, 0, 99, 0]

/-- The second vector runs on into the word of the third field. -/
theorem fields_overlapping : ¬ ∀ (F : FloatOps) (s : Sys) (l : Loaded), s.Reachable F →
    ∀ (map : FieldMap) (t : FieldTable) (fieldBytes : Nat),
    mapFields s.vm.core l.program = some (map, t, fieldBytes) →
    s.vm.core.Unified l.program map t fieldBytes := by
  intro claim
  have test : (Asm.minimal.boot .none .menu).any (fun vm => Asm.overlapping.load.any fun l =>
      (mapFields vm.core l.program).any fun (map, t, _) => vm.core.fields.words == 0 &&
        decide (3 < t.words) && map.lookup 3 == some 3 && map.lookup 10 == some 3) = true := by
    decide +kernel
  obtain ⟨vm, boot, test⟩ := (Option.any_eq_true _ _).mp test
  obtain ⟨l, load, test⟩ := (Option.any_eq_true _ _).mp test
  obtain ⟨⟨map, t, fieldBytes⟩, mapped, test⟩ := (Option.any_eq_true _ _).mp test
  simp only [Bool.and_eq_true, beq_iff_eq, decide_eq_true_eq] at test
  obtain ⟨⟨⟨words, more⟩, first⟩, second⟩ := test
  have unified := claim .onZero vm.start l (reachable_start boot) map t fieldBytes mapped
  have lo : vm.start.vm.core.fields.words ≤ 3 := by
    rw [show vm.start.vm.core.fields.words = 0 from words]
    omega
  obtain ⟨w, -, only⟩ := unified.once 3 lo more
  cases (only 3 first).trans (only 10 second).symm

end Qcvm

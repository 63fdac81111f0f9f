import Mathlib.Data.List.AList
import Qcvm.Stdlib.Info

/-!
# Info strings as maps

A well-formed info string is the text of an association list within the limits (`InfoMap`). On such
strings `info_get` looks a key up (`InfoMap.get_string`), `info_remove` erases it
(`InfoMap.remove_string`), and an accepted `info_set` makes the string of a map that has the new
value and the other values but that of `*ver` (`infoSet_map`).
-/

namespace Qcvm.Stdlib

open Lib

/-- What may stand in a pair. -/
def InfoField (s : List Byte) : Prop := backslash ∉ s ∧ s.length < infoFieldMax

instance (s : List Byte) : Decidable (InfoField s) := inferInstanceAs (Decidable (_ ∧ _))

/-- The text of pairs. -/
def infoString : List (Σ _ : List Byte, List Byte) → List Byte
  | [] => []
  | p :: pairs => [backslash] ++ (p.1 ++ backslash :: (p.2 ++ infoString pairs))

/-- The pairs of a well-formed info string. -/
structure InfoMap where
  pairs : AList fun _ : List Byte => List Byte
  fields : ∀ p ∈ pairs.entries, InfoField p.1 ∧ InfoField p.2
  size : (infoString pairs.entries).length < infoMax

/-- The key and the value are as a program should pass them. -/
structure Settable (key value : List Byte) : Prop where
  short : key.length < infoKeyMax
  keyBytes : ∀ c ∈ key, 13 < c ∧ c ≠ backslash ∧ c ≠ doubleQuote
  valueBytes : ∀ c ∈ value, 13 < c ∧ c ≠ backslash ∧ c ≠ doubleQuote
  pair : key.length + value.length + 2 ≤ infoPairMax

variable {pairs : List (Σ _ : List Byte, List Byte)} {p : Σ _ : List Byte, List Byte} {m : InfoMap}
  {key value other : List Byte}

/-! ## Pairs -/

/-- An info string is empty or starts with a backslash. -/
lemma infoString_front (pairs : List (Σ _ : List Byte, List Byte)) :
    infoString pairs = [] ∨ (infoString pairs).head? = some backslash := by
  cases pairs with
  | nil => exact Or.inl rfl
  | cons p pairs => exact Or.inr rfl

/-- The info string of pairs in sequence. -/
lemma infoString_append (pairs pairs' : List (Σ _ : List Byte, List Byte)) :
    infoString (pairs ++ pairs') = infoString pairs ++ infoString pairs' := by
  induction pairs with
  | nil => rfl
  | cons p pairs ih =>
    rw [List.cons_append, infoString, infoString, ih]
    simp only [List.append_assoc, List.cons_append]

/-- The first pair is cut off at the backslashes. -/
lemma infoString_cut (h : InfoField p.1 ∧ InfoField p.2) :
    Cut (infoString (p :: pairs)) [backslash] p.1 p.2 (infoString pairs) where
  split := rfl
  lead := Or.inl rfl
  key := h.1.1
  value := h.2.1
  rest := infoString_front pairs

/-- `info_get` looks up the pairs. -/
lemma infoGet_infoString (fields : ∀ p ∈ pairs, InfoField p.1 ∧ InfoField p.2) :
    infoGet (infoString pairs) key = (pairs.dlookup key).getD [] := by
  induction pairs with
  | nil => exact infoGet_of_notMem List.not_mem_nil
  | cons p pairs ih =>
    have first := fields p List.mem_cons_self
    rw [(infoString_cut first).get, if_neg (Nat.not_le.mpr first.1.2),
      if_neg (Nat.not_le.mpr first.2.2)]
    split_ifs with here
    · subst here
      rw [List.dlookup_cons_eq]
      rfl
    · rw [List.dlookup_cons_ne _ _ (Ne.symm here)]
      apply ih
      intro q mem
      exact fields q (List.mem_cons_of_mem p mem)

/-- `info_remove` erases the pair. -/
lemma infoRemove_infoString (fields : ∀ p ∈ pairs, InfoField p.1 ∧ InfoField p.2) :
    infoRemove (infoString pairs) key = infoString (pairs.kerase key) := by
  induction pairs with
  | nil => exact infoRemove_of_notMem List.not_mem_nil
  | cons p pairs ih =>
    rw [(infoString_cut (fields p List.mem_cons_self)).remove]
    split_ifs with here
    · rw [List.kerase_cons_eq here.symm]
    · rw [List.kerase_cons_ne (Ne.symm here), infoString, ih]
      intro q mem
      exact fields q (List.mem_cons_of_mem p mem)

/-- Erasing a pair makes no info string longer. -/
lemma infoString_kerase_le (key : List Byte) (pairs : List (Σ _ : List Byte, List Byte)) :
    (infoString (pairs.kerase key)).length ≤ (infoString pairs).length := by
  induction pairs with
  | nil => exact Nat.le_refl _
  | cons p pairs ih =>
    by_cases here : key = p.1
    · rw [List.kerase_cons_eq here, infoString]
      simp only [List.length_append, List.length_cons]
      omega
    · rw [List.kerase_cons_ne here, infoString, infoString]
      simp only [List.length_append, List.length_cons]
      omega

/-! ## Maps -/

namespace InfoMap

/-- The info string. -/
def string (m : InfoMap) : List Byte := infoString m.pairs.entries

/-- Without a key. -/
def erase (m : InfoMap) (key : List Byte) : InfoMap where
  pairs := m.pairs.erase key
  fields := by
    intro p mem
    exact m.fields p ((List.kerase_sublist key _).subset mem)
  size := Nat.lt_of_le_of_lt (infoString_kerase_le key _) m.size

/-- With a new key, behind the others. -/
def append (m : InfoMap) (key value : List Byte) (absent : key ∉ m.pairs)
    (field : InfoField key ∧ InfoField value)
    (size : m.string.length + (key.length + value.length + 2) < infoMax) : InfoMap where
  pairs := ⟨m.pairs.entries ++ [⟨key, value⟩], by
    have distinct : (Sigma.mk key value :: m.pairs.entries).NodupKeys :=
      List.nodupKeys_cons.mpr ⟨absent, m.pairs.nodupKeys⟩
    exact (List.perm_nodupKeys (List.perm_append_singleton _ _).symm).mp distinct⟩
  fields := by
    intro p mem
    rcases List.mem_append.mp mem with old | new
    · exact m.fields p old
    · rw [List.mem_singleton] at new
      subst new
      exact field
  size := by
    rw [infoString_append, List.length_append]
    simp only [infoString, List.length_append, List.length_cons, List.length_nil]
    change m.string.length + _ < _
    omega

/-- `info_get` of a map's string looks up the map. -/
lemma get_string (m : InfoMap) (key : List Byte) :
    infoGet m.string key = (m.pairs.lookup key).getD [] := infoGet_infoString m.fields

/-- `info_remove` of a map's string erases from the map. -/
lemma remove_string (m : InfoMap) (key : List Byte) :
    infoRemove m.string key = (m.erase key).string := infoRemove_infoString m.fields

/-- An erased key has no value. -/
lemma get_erase (m : InfoMap) (key : List Byte) : infoGet (m.erase key).string key = [] := by
  rw [get_string]
  change ((m.pairs.erase key).lookup key).getD [] = _
  rw [AList.lookup_erase]
  rfl

/-- Erasing a key keeps the values of the others. -/
lemma get_erase_of_ne (m : InfoMap) (h : other ≠ key) :
    infoGet (m.erase key).string other = infoGet m.string other := by
  rw [get_string, get_string]
  change ((m.pairs.erase key).lookup other).getD [] = _
  rw [AList.lookup_erase_ne h]

/-- An erased key is not in the map. -/
lemma notMem_erase (m : InfoMap) (key : List Byte) : key ∉ (m.erase key).pairs := by
  intro mem
  exact (AList.mem_erase.mp mem).1 rfl

section Append

variable {absent : key ∉ m.pairs} {field : InfoField key ∧ InfoField value}
  {size : m.string.length + (key.length + value.length + 2) < infoMax}

/-- A new pair stands at the end of the string. -/
lemma string_append : (m.append key value absent field size).string =
    m.string ++ ([backslash] ++ (key ++ backslash :: value)) := by
  rw [string, append, infoString_append]
  simp only [infoString, List.append_nil]
  rfl

/-- A new key has its value. -/
lemma get_append : infoGet (m.append key value absent field size).string key = value := by
  rw [get_string]
  change ((m.pairs.entries ++ [Sigma.mk key value]).dlookup key).getD [] = _
  have none : m.pairs.entries.dlookup key = none := AList.lookup_eq_none.mpr absent
  rw [List.dlookup_append, none, List.dlookup_cons_eq]
  rfl

/-- A new key keeps the values of the others. -/
lemma get_append_of_ne (h : other ≠ key) :
    infoGet (m.append key value absent field size).string other = infoGet m.string other := by
  rw [get_string, get_string]
  change ((m.pairs.entries ++ [Sigma.mk key value]).dlookup other).getD [] = _
  rw [List.dlookup_append, List.dlookup_cons_ne _ _ h, List.dlookup_nil, Option.or_none]
  rfl

end Append

end InfoMap

/-! ## Setting a key -/

namespace Settable

variable (h : Settable key value)

include h

/-- The key and the value have no byte that is refused. -/
lemma notMem {c : Byte} (bad : ¬(13 < c ∧ c ≠ backslash ∧ c ≠ doubleQuote)) :
    c ∉ key ∧ c ∉ value := by
  constructor
  · intro mem
    exact bad (h.keyBytes c mem)
  · intro mem
    exact bad (h.valueBytes c mem)

/-- The key and the value have no backslash. -/
lemma noBackslash : backslash ∉ key ∧ backslash ∉ value :=
  h.notMem fun ok => ok.2.1 rfl

/-- The key and the value are not refused. -/
lemma refused : infoRefused key value = none :=
  infoRefused_eq_none h.noBackslash (h.notMem fun ok => ok.2.2 rfl) h.short

/-- The key and the value may stand in a pair. -/
lemma fields : InfoField key ∧ InfoField value := by
  have fits := h.pair
  unfold infoPairMax at fits
  refine ⟨⟨h.noBackslash.1, ?_⟩, ⟨h.noBackslash.2, ?_⟩⟩
  all_goals
    unfold infoFieldMax
    omega

/-- Nothing of the pair is cut off. -/
lemma pair_eq : infoPair key value = [backslash] ++ (key ++ backslash :: value) := by
  refine List.take_of_length_le ?_
  have fits := h.pair
  simp only [List.length_append, List.length_cons]
  omega

/-- Nothing of the pair is left out. -/
lemma filter_pair : (infoPair key value).filter (13 < ·) = infoPair key value := by
  rw [List.filter_eq_self]
  intro c mem
  rw [h.pair_eq] at mem
  rw [decide_eq_true_iff]
  rcases List.mem_append.mp mem with front | mem
  · rw [List.mem_singleton] at front
    rw [front]
    decide
  · rcases List.mem_append.mp mem with mem | mem
    · exact (h.keyBytes c mem).1
    · rcases List.mem_cons.mp mem with rfl | mem
      · decide
      · exact (h.valueBytes c mem).1

end Settable

/-- The map has the values of another, except that of `*ver`. -/
def SameBut (m m' : InfoMap) : Prop :=
  ∀ other, other ≠ ver → infoGet m'.string other = infoGet m.string other

/-- Making room drops nothing but `*ver`. -/
lemma roomLoop_string (m : InfoMap) (key value : List Byte) :
    ∃ m' : InfoMap, ((infoRoomLoop key value).run m.string).1 = m'.string ∧ SameBut m m' := by
  refine (infoRoomLoop key value).run_holds (I := fun s => ∃ m' : InfoMap, s = m'.string ∧
    SameBut m m') (J := fun r => ∃ m' : InfoMap, r.1 = m'.string ∧ SameBut m m') ?_ ?_
  · rintro s ⟨m', rfl, same⟩
    change Status.Holds _ _ (infoRoomStep _ _ _)
    rw [infoRoomStep]
    split_ifs
    · refine ⟨m'.erase ver, m'.remove_string ver, ?_⟩
      intro other ne
      rw [m'.get_erase_of_ne ne, same other ne]
    · exact ⟨m', rfl, same⟩
    · exact ⟨m', rfl, same⟩
  · refine ⟨m, rfl, ?_⟩
    intro other _
    rfl

/-- What an accepted change makes of the string that has room. -/
lemma exists_of_accepted {m' : InfoMap} (h : Settable key value)
    (fits : value ≠ [] → (infoPair key value).length + (m'.erase key).string.length + 1 ≤ infoMax) :
    ∃ m'' : InfoMap, (if value = [] then (m'.erase key).string
      else (m'.erase key).string ++ (infoPair key value).filter (13 < ·)) = m''.string ∧
      infoGet m''.string key = value ∧
      ∀ other, other ≠ key → infoGet m''.string other = infoGet m'.string other := by
  split_ifs with empty
  · subst empty
    exact ⟨m'.erase key, rfl, m'.get_erase key, fun other ne => m'.get_erase_of_ne ne⟩
  · have size : (m'.erase key).string.length + (key.length + value.length + 2) < infoMax := by
      have le := fits empty
      rw [h.pair_eq] at le
      simp only [List.length_append, List.length_cons, List.length_nil] at le
      omega
    refine ⟨(m'.erase key).append key value (m'.notMem_erase key) h.fields size, ?_, ?_, ?_⟩
    · rw [h.filter_pair, h.pair_eq, InfoMap.string_append]
    · exact InfoMap.get_append
    · intro other ne
      rw [InfoMap.get_append_of_ne ne, m'.get_erase_of_ne ne]

/-- Info strings are maps: an accepted `info_set` of a well-formed string makes a well-formed string
that has the value and the other values but that of `*ver`; and the loops of `info_get`,
`info_remove` and `info_set` end on every input. -/
theorem infoSet_map :
    (∀ (m : InfoMap) (key value : List Byte), Settable key value →
      (infoSet m.string key value).2 = none →
      ∃ m' : InfoMap, (infoSet m.string key value).1 = m'.string ∧
        infoGet m'.string key = value ∧
        ∀ other, other ≠ key → other ≠ ver → infoGet m'.string other = infoGet m.string other) ∧
    ∀ info key value : List Byte,
      (∃ n, Status.runFor (infoGetStep key) n (.running (stripBackslash info)) =
        .done (infoGet info key)) ∧
      (∃ n, Status.runFor (infoRemoveStep info key) n (.running 0) =
        .done (infoRemove info key)) ∧
      ∃ n, Status.runFor (infoRoomStep key value) n (.running info) =
        .done ((infoRoomLoop key value).run info) := by
  refine ⟨?_, ?_⟩
  · intro m key value h accepted
    obtain ⟨m', string, same⟩ := roomLoop_string m key value
    have size : m.string.length < infoMax := m.size
    rw [infoSet_eq size h.refused] at accepted ⊢
    dsimp only at accepted ⊢
    rw [string, m'.remove_string] at accepted ⊢
    have roomy : ¬((infoRoomLoop key value).run m.string).2 = true := by
      intro full
      rw [if_pos full] at accepted
      cases accepted
    rw [if_neg roomy] at accepted ⊢
    have fits : value ≠ [] →
        (infoPair key value).length + (m'.erase key).string.length + 1 ≤ infoMax := by
      intro some
      rw [if_neg some] at accepted
      split_ifs at accepted with long
      exact Nat.not_lt.mp long
    obtain ⟨m'', string, here, others⟩ := exists_of_accepted h fits
    refine ⟨m'', ?_, here, ?_⟩
    · rw [← string]
      split_ifs with empty long
      · rfl
      · exact absurd long (Nat.not_lt.mpr (fits empty))
      · rfl
    · intro other ne notVer
      rw [others other ne, same other notVer]
  · intro info key value
    obtain ⟨n, -, get⟩ := (infoGetLoop key).ends (stripBackslash info)
    obtain ⟨n', -, remove⟩ := (infoRemoveLoop info key).ends 0
    obtain ⟨n'', -, room⟩ := (infoRoomLoop key value).ends info
    exact ⟨⟨n, get⟩, ⟨n', remove⟩, ⟨n'', room⟩⟩

/-- The string `\name\player\*ver\1`. -/
def playerInfo : InfoMap where
  pairs := ⟨[⟨[110, 97, 109, 101], [112, 108, 97, 121, 101, 114]⟩, ⟨ver, [49]⟩], by
    rw [List.nodupKeys_iff_pairwise]
    decide⟩
  fields := by decide
  size := by decide

/-- At the name of a player, which is replaced. -/
theorem infoSet_map_player :
    (infoSet playerInfo.string [110, 97, 109, 101] [114, 97, 110, 103, 101, 114]).2 = none ∧
    ∃ m' : InfoMap,
      (infoSet playerInfo.string [110, 97, 109, 101] [114, 97, 110, 103, 101, 114]).1 = m'.string ∧
      infoGet m'.string [110, 97, 109, 101] = [114, 97, 110, 103, 101, 114] ∧
      ∀ other, other ≠ [110, 97, 109, 101] → other ≠ ver →
        infoGet m'.string other = infoGet playerInfo.string other := by
  have accepted : (infoSet playerInfo.string [110, 97, 109, 101]
      [114, 97, 110, 103, 101, 114]).2 = none := by decide +kernel
  refine ⟨accepted, infoSet_map.1 playerInfo _ _ ⟨?_, ?_, ?_, ?_⟩ accepted⟩
  all_goals decide

end Qcvm.Stdlib

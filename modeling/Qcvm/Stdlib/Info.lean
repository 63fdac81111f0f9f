import Qcvm.Lib.Loop
import Qcvm.Stdlib.Tokenize

/-!
# Info strings

`info_get`, `info_remove` and `info_set` of `stdlib/string.rs`, which parse a `\key\value` string by
hand. Each of their loops is a `Loop`. `Cut` is what one turn of the first two has in common: the
first pair of a string and what follows it. The lookup and the removal of a string are then known
from those of what follows its first pair (`infoGet_cut`, `infoRemove_cut`), for any string.
-/

namespace Qcvm.Stdlib

open Lib Loop

/-- Keys and values this long are not found. -/
def infoFieldMax : Nat := 1022

/-- Maximum info string size including the terminator. -/
def infoMax : Nat := 4096

/-- Maximum size of one `\key\value` pair. -/
def infoPairMax : Nat := 1023

/-- Keys must be shorter than this. -/
def infoKeyMax : Nat := 256

/-- The key that makes room, `*ver`. -/
def ver : List Byte := [42, 118, 101, 114]

/-- The position of the first backslash. -/
def position : List Byte → Option Nat
  | [] => none
  | c :: s => if c = backslash then some 0 else (position s).map (· + 1)

variable {s front back u info done key value rest lead k k' : List Byte} {n start : Nat}

/-- The first backslash stands where it is written. -/
lemma position_append (h : backslash ∉ front) :
    position (front ++ backslash :: back) = some front.length := by
  induction front with
  | nil => rfl
  | cons c front ih =>
    rw [List.mem_cons, not_or] at h
    rw [List.cons_append, position, if_neg (Ne.symm h.1), ih h.2]
    rfl

/-- Without a backslash there is no position. -/
lemma position_of_notMem (h : backslash ∉ s) : position s = none := by
  induction s with
  | nil => rfl
  | cons c s ih =>
    rw [List.mem_cons, not_or] at h
    rw [position, if_neg (Ne.symm h.1), ih h.2]
    rfl

/-- A string with a backslash is cut at the first. -/
lemma exists_cut (h : backslash ∈ s) : ∃ front back, s = front ++ backslash :: back ∧
    backslash ∉ front := by
  induction s with
  | nil => cases h
  | cons c s ih =>
    by_cases here : c = backslash
    · exact ⟨[], s, by rw [here]; rfl, List.not_mem_nil⟩
    · obtain ⟨front, back, rfl, none⟩ := ih ((List.mem_cons.mp h).resolve_left (Ne.symm here))
      refine ⟨c :: front, back, rfl, ?_⟩
      rw [List.mem_cons, not_or]
      exact ⟨Ne.symm here, none⟩

/-- A position lies in the string. -/
lemma position_lt (h : position s = some n) : n < s.length := by
  by_cases mem : backslash ∈ s
  · obtain ⟨front, back, rfl, none⟩ := exists_cut mem
    rw [position_append none] at h
    cases h
    rw [List.length_append, List.length_cons]
    omega
  · rw [position_of_notMem mem] at h
    cases h

/-! ## Lookup -/

/-- A turn of `info_get`, at what is behind the backslash before a key. -/
def infoGetStep (key rest : List Byte) : Status (List Byte) (List Byte) :=
  match position rest with
  | none => .done []
  | some k =>
    let pkey := rest.take k
    if infoFieldMax ≤ pkey.length then .done []
    else
      let rest := rest.drop (k + 1)
      let v := (position rest).getD rest.length
      let value := rest.take v
      if infoFieldMax ≤ value.length then .done []
      else if pkey = key then .done value
      else if rest.length ≤ v then .done []
      else .running (rest.drop (v + 1))

/-- The loop of `info_get`. -/
def infoGetLoop (key : List Byte) : Loop (List Byte) (List Byte) where
  step := infoGetStep key
  variant := List.length
  decreases := by
    intro rest rest' h
    unfold infoGetStep at h
    split at h
    · cases h
    next k found =>
      have inside := position_lt found
      dsimp only at h
      split_ifs at h
      cases h
      rw [List.length_drop, List.length_drop]
      omega

/-- A string without the backslash it starts with, if it does. -/
def stripBackslash (s : List Byte) : List Byte :=
  if s.head? = some backslash then s.tail else s

/-- `info_get`: the value of a key, empty if there is none. -/
def infoGet (info key : List Byte) : List Byte := (infoGetLoop key).run (stripBackslash info)

/-! ## Removal -/

/-- A turn of `info_remove`, at the start of a pair. -/
def infoRemoveStep (info key : List Byte) (start : Nat) : Status Nat (List Byte) :=
  let p := if info[start]? = some backslash then start + 1 else start
  let tail := info.drop p
  match position tail with
  | none => .done info
  | some k =>
    let p := p + k + 1
    let tail' := info.drop p
    let stop := p + (position tail').getD tail'.length
    if tail.take k = key then .done (info.take start ++ info.drop stop)
    else if info.length ≤ stop then .done info
    else .running stop

/-- The loop of `info_remove`. -/
def infoRemoveLoop (info key : List Byte) : Loop Nat (List Byte) where
  step := infoRemoveStep info key
  variant start := info.length - start
  decreases := by
    intro start stop h
    unfold infoRemoveStep at h
    dsimp only at h
    split at h
    · cases h
    next k found =>
      split_ifs at h
      all_goals
        cases h
        omega

/-- `info_remove`: removes the first pair with this key. -/
def infoRemove (info key : List Byte) : List Byte := (infoRemoveLoop info key).run 0

/-! ## The first pair -/

/-- The first pair of a string, and what follows it. -/
structure Cut (u lead key value rest : List Byte) : Prop where
  split : u = lead ++ (key ++ backslash :: (value ++ rest))
  lead : lead = [backslash] ∨ lead = [] ∧ u.head? ≠ some backslash
  key : backslash ∉ key
  value : backslash ∉ value
  rest : rest = [] ∨ rest.head? = some backslash

/-- A string has a first pair, or no backslash. -/
lemma notMem_or_cut (u : List Byte) :
    backslash ∉ stripBackslash u ∨ ∃ lead key value rest, Cut u lead key value rest := by
  by_cases mem : backslash ∈ stripBackslash u
  · right
    obtain ⟨key, after, split, noKey⟩ := exists_cut mem
    have start : ∃ lead, u = lead ++ stripBackslash u ∧
        (lead = [backslash] ∨ lead = [] ∧ u.head? ≠ some backslash) := by
      unfold stripBackslash
      cases u with
      | nil => exact ⟨[], rfl, Or.inr ⟨rfl, by simp⟩⟩
      | cons c u =>
        by_cases led : c = backslash
        · subst led
          exact ⟨[backslash], rfl, Or.inl rfl⟩
        · rw [if_neg (by simpa using led)]
          exact ⟨[], rfl, Or.inr ⟨rfl, by simpa using led⟩⟩
    obtain ⟨lead, whole, led⟩ := start
    by_cases more : backslash ∈ after
    · obtain ⟨value, back, rfl, noValue⟩ := exists_cut more
      exact ⟨lead, key, value, backslash :: back, by rw [← split, ← whole], led, noKey, noValue,
        Or.inr rfl⟩
    · exact ⟨lead, key, after, [], by rw [List.append_nil, ← split, ← whole], led, noKey, more,
        Or.inl rfl⟩
  · exact Or.inl mem

namespace Cut

/-- A cut string without its leading backslash. -/
lemma strip (c : Cut u lead key value rest) :
    stripBackslash u = key ++ backslash :: (value ++ rest) := by
  unfold stripBackslash
  rcases c.lead with rfl | ⟨rfl, other⟩
  · rw [c.split]
    rfl
  · rw [if_neg other]
    exact c.split

/-- The value ends at the next backslash. -/
lemma position_value (c : Cut u lead key value rest) :
    (position (value ++ rest)).getD (value ++ rest).length = value.length := by
  rcases c.rest with rfl | led
  · rw [List.append_nil, position_of_notMem c.value]
    rfl
  · cases rest with
    | nil => cases led
    | cons d rest =>
      cases led
      rw [position_append c.value]
      rfl

/-- The rest of a cut string is shorter. -/
lemma length_lt (c : Cut u lead key value rest) : rest.length < u.length := by
  rw [c.split]
  simp only [List.length_append, List.length_cons]
  omega

/-- `info_get` looks at the first pair, and then at the rest. -/
lemma get (c : Cut u lead key value rest) : infoGet u k =
    if infoFieldMax ≤ key.length then []
    else if infoFieldMax ≤ value.length then []
    else if key = k then value
    else infoGet rest k := by
  have found : position (stripBackslash u) = some key.length := by
    rw [c.strip, position_append c.key]
  have behind : (stripBackslash u).drop (key.length + 1) = value ++ rest := by
    rw [c.strip, List.drop_append, List.drop_of_length_le (by omega), Nat.add_sub_cancel_left]
    rfl
  have step : infoGetStep k (stripBackslash u) =
      if infoFieldMax ≤ key.length then .done []
      else if infoFieldMax ≤ value.length then .done []
      else if key = k then .done value
      else if (value ++ rest).length ≤ value.length then .done []
      else .running ((value ++ rest).drop (value.length + 1)) := by
    rw [infoGetStep, found]
    dsimp only
    rw [behind, c.position_value, c.strip, List.take_left, List.take_left]
  split_ifs at step ⊢ with longKey longValue here last
  · exact run_of_done step
  · exact run_of_done step
  · exact run_of_done step
  · have none : rest = [] := by
      rw [List.length_append] at last
      exact List.eq_nil_of_length_eq_zero (by omega)
    rw [none]
    exact (run_of_done step).trans (run_of_done rfl).symm
  · have next : (value ++ rest).drop (value.length + 1) = stripBackslash rest := by
      rcases c.rest with rfl | led
      · rw [List.append_nil] at last
        exact absurd (Nat.le_refl _) last
      · rw [stripBackslash, if_pos led, List.drop_append, List.drop_of_length_le (by omega),
          Nat.add_sub_cancel_left, List.nil_append, List.drop_one]
    rw [next] at step
    exact run_of_running step

/-- A turn of the removal, at a pair behind any string. -/
lemma remove_turn (c : Cut u lead key value rest) (done : List Byte) :
    (infoRemoveLoop (done ++ u) k).run done.length =
      if key = k then done ++ rest
      else (infoRemoveLoop (done ++ u) k).run
        (done ++ (lead ++ (key ++ backslash :: value))).length := by
  have whole : done ++ u = (done ++ lead) ++ (key ++ backslash :: (value ++ rest)) := by
    rw [c.split, List.append_assoc]
  have led : (if (done ++ u)[done.length]? = some backslash then done.length + 1
      else done.length) = (done ++ lead).length := by
    rw [List.getElem?_append_right (Nat.le_refl _), Nat.sub_self, ← List.head?_eq_getElem?]
    rcases c.lead with rfl | ⟨rfl, other⟩
    · rw [if_pos (by rw [c.split]; rfl), List.length_append]
      rfl
    · rw [if_neg other, List.append_nil]
  have tail : (done ++ u).drop (done ++ lead).length = key ++ backslash :: (value ++ rest) := by
    rw [whole, List.drop_left]
  have tail' : (done ++ u).drop ((done ++ lead).length + key.length + 1) = value ++ rest := by
    rw [Nat.add_assoc, ← List.drop_drop, tail, List.drop_append, List.drop_of_length_le (by omega),
      Nat.add_sub_cancel_left]
    rfl
  have stop : (done ++ lead).length + key.length + 1 + value.length =
      (done ++ (lead ++ (key ++ backslash :: value))).length := by
    simp only [List.length_append, List.length_cons]
    omega
  have parts : done ++ u = (done ++ (lead ++ (key ++ backslash :: value))) ++ rest := by
    rw [whole]
    simp only [List.append_assoc, List.cons_append]
  have step : infoRemoveStep (done ++ u) k done.length =
      if key = k then .done (done ++ rest)
      else if (done ++ u).length ≤ (done ++ (lead ++ (key ++ backslash :: value))).length
        then .done (done ++ u)
      else .running (done ++ (lead ++ (key ++ backslash :: value))).length := by
    rw [infoRemoveStep]
    dsimp only
    rw [led, tail, position_append c.key]
    dsimp only
    rw [tail', c.position_value, stop, List.take_left, List.take_left]
    congr 3
    rw [parts, List.drop_left]
  split_ifs at step ⊢ with here last
  · exact run_of_done step
  · rw [run_of_done step]
    refine (run_of_done ?_).symm
    change infoRemoveStep _ _ _ = _
    rw [infoRemoveStep]
    dsimp only
    rw [List.getElem?_eq_none last, if_neg (by simp), List.drop_of_length_le last]
    rfl
  · exact run_of_running step

end Cut

/-- A string without a pair is left as it is, behind any string. -/
lemma remove_of_notMem (done : List Byte) (h : backslash ∉ stripBackslash u) :
    (infoRemoveLoop (done ++ u) k).run done.length = done ++ u := by
  apply run_of_done
  have tail : (done ++ u).drop (if (done ++ u)[done.length]? = some backslash then done.length + 1
      else done.length) = stripBackslash u := by
    rw [List.getElem?_append_right (Nat.le_refl _), Nat.sub_self, ← List.head?_eq_getElem?,
      stripBackslash]
    split_ifs with led
    · rw [← List.drop_drop, List.drop_left, List.drop_one]
    · rw [List.drop_left]
  change infoRemoveStep (done ++ u) k done.length = _
  rw [infoRemoveStep]
  dsimp only
  rw [tail, position_of_notMem h]

/-- The removal starts over at every pair. -/
lemma infoRemove_append (done u : List Byte) :
    (infoRemoveLoop (done ++ u) k).run done.length = done ++ infoRemove u k := by
  induction size : u.length using Nat.strongRecOn generalizing u done with
  | ind n ih =>
    rcases notMem_or_cut u with none | ⟨lead, key, value, rest, c⟩
    · rw [remove_of_notMem done none]
      exact congrArg _ (remove_of_notMem [] none).symm
    · have less := c.length_lt
      rw [size] at less
      have parts : u = (lead ++ (key ++ backslash :: value)) ++ rest := by
        rw [c.split]
        simp only [List.append_assoc, List.cons_append]
      have first : infoRemove u k = _ := c.remove_turn []
      rw [c.remove_turn, first]
      split_ifs
      · rfl
      · have inner := ih _ less (lead ++ (key ++ backslash :: value)) rest rfl
        have outer := ih _ less (done ++ (lead ++ (key ++ backslash :: value))) rest rfl
        rw [← parts] at inner
        rw [List.append_assoc, ← parts] at outer
        rw [List.nil_append, List.nil_append, inner, outer, List.append_assoc]

/-- What the lookup and the removal find in a string without a pair. -/
lemma infoGet_of_notMem (h : backslash ∉ stripBackslash u) : infoGet u k = [] := by
  apply run_of_done
  change infoGetStep _ _ = _
  rw [infoGetStep, position_of_notMem h]

/-- Where there is no pair `info_remove` changes nothing. -/
lemma infoRemove_of_notMem (h : backslash ∉ stripBackslash u) : infoRemove u k = u :=
  remove_of_notMem [] h

/-- `info_remove` looks at the first pair, and then at the rest. -/
lemma Cut.remove (c : Cut u lead key value rest) : infoRemove u k =
    if key = k then rest else lead ++ (key ++ backslash :: (value ++ infoRemove rest k)) := by
  have first : infoRemove u k = _ := c.remove_turn []
  have parts : u = (lead ++ (key ++ backslash :: value)) ++ rest := by
    rw [c.split]
    simp only [List.append_assoc, List.cons_append]
  rw [first]
  split_ifs
  · rfl
  · rw [List.nil_append, List.nil_append, parts, infoRemove_append]
    simp only [List.append_assoc, List.cons_append]

/-- The removal leaves a pair, or nothing, at the front of what followed a pair. -/
lemma infoRemove_front (h : u = [] ∨ u.head? = some backslash) :
    infoRemove u k = [] ∨ (infoRemove u k).head? = some backslash := by
  rcases notMem_or_cut u with none | ⟨lead, key, value, rest, c⟩
  · rw [infoRemove_of_notMem none]
    exact h
  · rw [c.remove]
    split_ifs
    · exact c.rest
    · have led : u.head? = some backslash := by
        refine h.resolve_left ?_
        rintro rfl
        exact absurd c.length_lt (Nat.not_lt_zero _)
      rcases c.lead with rfl | ⟨-, other⟩
      · exact Or.inr rfl
      · exact absurd led other

/-- The pair stays the first when another is removed. -/
lemma Cut.keep (c : Cut u lead key value rest) (other : key ≠ k) :
    Cut (infoRemove u k) lead key value (infoRemove rest k) where
  split := by rw [c.remove, if_neg other]
  lead := by
    refine c.lead.imp_right ?_
    rintro ⟨rfl, other'⟩
    refine ⟨rfl, ?_⟩
    rw [c.remove, if_neg other]
    have same := c.split
    cases key with
    | nil => exact absurd (congrArg List.head? same) other'
    | cons d key =>
      rw [same] at other'
      exact other'
  key := c.key
  value := c.value
  rest := infoRemove_front c.rest

/-- A removal that finds a value makes the string shorter. -/
lemma infoRemove_lt (h : infoGet u k ≠ []) : (infoRemove u k).length < u.length := by
  induction size : u.length using Nat.strongRecOn generalizing u with
  | ind n ih =>
    rcases notMem_or_cut u with none | ⟨lead, key, value, rest, c⟩
    · exact absurd (infoGet_of_notMem none) h
    · have less := c.length_lt
      rw [c.get] at h
      split_ifs at h with longKey longValue here
      · exact absurd rfl h
      · exact absurd rfl h
      · rw [c.remove, if_pos here]
        omega
      · have shorter := ih rest.length (by omega) h rfl
        rw [c.remove, if_neg here]
        have whole := congrArg List.length c.split
        simp only [List.length_append, List.length_cons] at whole ⊢
        omega

/-- A removal that finds a value leaves the other values. -/
lemma infoGet_remove (h : infoGet u k ≠ []) (other : k ≠ k') :
    infoGet (infoRemove u k) k' = infoGet u k' := by
  induction size : u.length using Nat.strongRecOn generalizing u with
  | ind n ih =>
    rcases notMem_or_cut u with none | ⟨lead, key, value, rest, c⟩
    · exact absurd (infoGet_of_notMem none) h
    · have less := c.length_lt
      rw [size] at less
      rw [c.get] at h
      split_ifs at h with longKey longValue here
      · exact absurd rfl h
      · exact absurd rfl h
      · rw [c.remove, if_pos here, c.get, if_neg longKey, if_neg longValue,
          if_neg (here.trans_ne other)]
      · rw [(c.keep here).get, c.get, ih _ less h rfl]

/-! ## Setting a key -/

/-- The bytes that the string takes up with the value in place of the one it has. -/
def infoNeeded (s key value : List Byte) : Nat :=
  value.length + s.length + 1 - (infoGet s key).length

/-- A turn of the loop of `info_set` that drops `*ver` to make room: done with the string and
whether there is too little of it. -/
def infoRoomStep (key value s : List Byte) : Status (List Byte) (List Byte × Bool) :=
  if infoGet s key ≠ [] ∧ infoMax < infoNeeded s key value then
    if infoGet s ver ≠ [] then .running (infoRemove s ver)
    else .done (s, true)
  else .done (s, false)

/-- The loop of `info_set`. -/
def infoRoomLoop (key value : List Byte) : Loop (List Byte) (List Byte × Bool) where
  step := infoRoomStep key value
  variant := List.length
  decreases := by
    intro s s' h
    rw [infoRoomStep] at h
    split_ifs at h with full dropped
    cases h
    exact infoRemove_lt dropped

/-- The pair that is appended, cut to the longest. -/
def infoPair (key value : List Byte) : List Byte :=
  (backslash :: key ++ backslash :: value).take infoPairMax

/-- What `info_set` checks before anything else. -/
def infoRefused (key value : List Byte) : Option String :=
  if key.contains backslash || value.contains backslash then
    some "infoadd: keys and values can't contain a \\"
  else if key.contains doubleQuote || value.contains doubleQuote then
    some "infoadd: keys and values can't contain a \""
  else if infoKeyMax ≤ key.length then
    some "infoadd: keys must be shorter than 256 characters"
  else none

/-- What `info_set` says when there is too little room. -/
def infoExceeded : String := "infoadd: info string length exceeded"

/-- `info_set`: the new string, or one with the reason when the change is rejected. -/
def infoSet (info key value : List Byte) : List Byte × Option String :=
  let original := info.take (min info.length (infoMax - 1))
  match infoRefused key value with
  | some message => (original, some message)
  | none =>
    match (infoRoomLoop key value).run original with
    | (s, true) => (s, some infoExceeded)
    | (s, false) =>
      let s := infoRemove s key
      if value = [] then (s, none)
      else
        let pair := infoPair key value
        if infoMax < pair.length + s.length + 1 then (original, some infoExceeded)
        else (s ++ pair.filter (13 < ·), none)

/-- A key and a value without special bytes are accepted, if the key is short. -/
lemma infoRefused_eq_none (noBackslash : backslash ∉ key ∧ backslash ∉ value)
    (noQuote : doubleQuote ∉ key ∧ doubleQuote ∉ value) (short : key.length < infoKeyMax) :
    infoRefused key value = none := by
  have without {c : Byte} (h : c ∉ key ∧ c ∉ value) :
      ¬(key.contains c || value.contains c) = true := by
    rw [Bool.or_eq_true, List.contains_iff_mem, List.contains_iff_mem]
    exact not_or.mpr h
  rw [infoRefused, if_neg (without noBackslash), if_neg (without noQuote),
    if_neg (Nat.not_le.mpr short)]

/-- A change of a string within the limit that is not refused at once. -/
lemma infoSet_eq (size : info.length < infoMax) (accepted : infoRefused key value = none) :
    infoSet info key value =
      let room := (infoRoomLoop key value).run info
      if room.2 = true then (room.1, some infoExceeded)
      else if value = [] then (infoRemove room.1 key, none)
      else if infoMax < (infoPair key value).length + (infoRemove room.1 key).length + 1 then
        (info, some infoExceeded)
      else (infoRemove room.1 key ++ (infoPair key value).filter (13 < ·), none) := by
  have original : info.take (min info.length (infoMax - 1)) = info :=
    List.take_of_length_le (by omega)
  rw [infoSet, accepted, original]
  dsimp only
  cases (infoRoomLoop key value).run info with
  | mk s full =>
    cases full with
    | true => rfl
    | false => rfl

end Qcvm.Stdlib

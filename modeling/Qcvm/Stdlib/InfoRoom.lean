import Qcvm.Stdlib.InfoMap

/-!
# Rejected changes of info strings

`info_set` drops `*ver` to make room for a value that replaces another. Where that is not enough it
returns the string that it worked on, not the one it was given. So a rejected change leaves the
string as it is unless `*ver` was dropped in vain (`infoSet_unchanged_iff`).
-/

namespace Qcvm.Stdlib

open Lib Loop

variable {info s key value other : List Byte}

/-- A turn of the loop that drops every `*ver` that is found. -/
def dropVerStep (s : List Byte) : Status (List Byte) (List Byte) :=
  if infoGet s ver ≠ [] then .running (infoRemove s ver) else .done s

def dropVerLoop : Loop (List Byte) (List Byte) where
  step := dropVerStep
  variant := List.length
  decreases := by
    intro s s' h
    rw [dropVerStep] at h
    split_ifs at h with found
    cases h
    exact infoRemove_lt found

/-- The string without the pairs of `*ver` that are found. -/
def withoutVer (s : List Byte) : List Byte := dropVerLoop.run s

/-- There is too little room for the value in place of the one that the key has. -/
def Full (key value s : List Byte) : Prop :=
  infoGet s key ≠ [] ∧ infoMax < infoNeeded s key value

/-- A change that drops `*ver` in vain: it is not refused at once, it gives another key a value in
place of one it has, and that does not fit even without `*ver`. -/
def DropsInVain (info key value : List Byte) : Prop :=
  infoRefused key value = none ∧ key ≠ ver ∧ infoGet info ver ≠ [] ∧ infoGet info key ≠ [] ∧
    infoMax < value.length + (withoutVer info).length + 1 - (infoGet info key).length

/-! ## The string without `*ver` -/

lemma withoutVer_of_found (h : infoGet s ver ≠ []) : withoutVer s = withoutVer (infoRemove s ver) :=
  run_of_running (if_pos h)

lemma withoutVer_of_none (h : infoGet s ver = []) : withoutVer s = s :=
  run_of_done (if_neg (not_not.mpr h))

lemma infoGet_withoutVer (s : List Byte) : infoGet (withoutVer s) ver = [] := by
  refine dropVerLoop.run_holds (I := fun _ => True) (J := fun t => infoGet t ver = []) ?_ trivial
  intro s _
  change Status.Holds _ _ (dropVerStep s)
  rw [dropVerStep]
  split_ifs with found
  · trivial
  · exact not_not.mp found

lemma infoGet_withoutVer_of_ne (ne : key ≠ ver) (s : List Byte) :
    infoGet (withoutVer s) key = infoGet s key := by
  refine dropVerLoop.run_holds (I := fun t => infoGet t key = infoGet s key)
    (J := fun t => infoGet t key = infoGet s key) ?_ rfl
  intro t same
  change Status.Holds _ _ (dropVerStep t)
  rw [dropVerStep]
  split_ifs with found
  · exact (infoGet_remove found ne.symm).trans same
  · exact same

lemma withoutVer_le (s : List Byte) : (withoutVer s).length ≤ s.length := by
  refine dropVerLoop.run_holds (I := fun t => t.length ≤ s.length)
    (J := fun t => t.length ≤ s.length) ?_ (Nat.le_refl _)
  intro t le
  change Status.Holds _ _ (dropVerStep t)
  rw [dropVerStep]
  split_ifs with found
  · exact (infoRemove_lt found).le.trans le
  · exact le

lemma withoutVer_ne (h : infoGet s ver ≠ []) : withoutVer s ≠ s := by
  intro same
  have le := withoutVer_le (infoRemove s ver)
  rw [← withoutVer_of_found h, same] at le
  exact absurd (infoRemove_lt h) (Nat.not_lt.mpr le)

/-! ## Making room -/

lemma full_withoutVer_iff (ne : key ≠ ver) : Full key value (withoutVer s) ↔
    infoGet s key ≠ [] ∧
      infoMax < value.length + (withoutVer s).length + 1 - (infoGet s key).length := by
  rw [Full, infoNeeded, infoGet_withoutVer_of_ne ne]

/-- A string that stays full without its first `*ver` was full. -/
lemma full_of_remove (ne : key ≠ ver) (found : infoGet s ver ≠ [])
    (h : Full key value (infoRemove s ver)) : Full key value s := by
  have less := infoRemove_lt found
  have same := infoGet_remove found ne.symm
  rw [Full, infoNeeded, same] at h
  refine ⟨h.1, ?_⟩
  rw [infoNeeded]
  omega

/-- The room loop that gives up has dropped every `*ver`. -/
lemma full_of_room (h : ((infoRoomLoop key value).run s).2 = true) :
    ((infoRoomLoop key value).run s).1 = withoutVer s ∧ Full key value (withoutVer s) := by
  refine (infoRoomLoop key value).run_holds (I := fun t => withoutVer t = withoutVer s)
    (J := fun r => r.2 = true → r.1 = withoutVer s ∧ Full key value (withoutVer s)) ?_ rfl h
  intro t same
  change Status.Holds _ _ (infoRoomStep key value t)
  rw [infoRoomStep]
  split_ifs with full found
  · exact (withoutVer_of_found found).symm.trans same
  · intro _
    have none := withoutVer_of_none (not_not.mp found)
    rw [same] at none
    rw [none]
    exact ⟨rfl, full⟩
  · intro contra
    cases contra

/-- The room loop gives up on a string that is full without `*ver`. -/
lemma room_of_full (ne : key ≠ ver) (h : Full key value (withoutVer s)) :
    Full key value s ∧ (infoRoomLoop key value).run s = (withoutVer s, true) := by
  induction size : s.length using Nat.strongRecOn generalizing s with
  | ind n ih =>
    by_cases found : infoGet s ver = []
    · rw [withoutVer_of_none found] at h ⊢
      refine ⟨h, run_of_done ?_⟩
      change infoRoomStep _ _ _ = _
      exact (if_pos h).trans (if_neg (not_not.mpr found))
    · rw [withoutVer_of_found found] at h ⊢
      obtain ⟨full, run⟩ := ih _ (size ▸ infoRemove_lt found) h rfl
      have here := full_of_remove ne found full
      refine ⟨here, ?_⟩
      rw [← run]
      apply run_of_running
      change infoRoomStep _ _ _ = _
      exact (if_pos here).trans (if_pos found)

/-! ## What is returned -/

/-- A change that drops `*ver` in vain returns the string without it. -/
lemma DropsInVain.infoSet (h : DropsInVain info key value) (size : info.length < infoMax) :
    infoSet info key value = (withoutVer info, some infoExceeded) := by
  obtain ⟨accepted, ne, -, full⟩ := h
  rw [infoSet_eq size accepted, (room_of_full ne ((full_withoutVer_iff ne).mpr full)).2]
  rfl

/-- A rejected `info_set` returns the string unchanged, exactly if it did not drop `*ver` in
vain. -/
theorem infoSet_unchanged_iff (info key value : List Byte) (size : info.length < infoMax) :
    ((infoSet info key value).2 ≠ none → (infoSet info key value).1 = info) ↔
      ¬DropsInVain info key value := by
  constructor
  · intro unchanged vain
    rw [vain.infoSet size] at unchanged
    exact withoutVer_ne vain.2.2.1 (unchanged (Option.some_ne_none _))
  · intro notVain rejected
    cases accepted : infoRefused key value with
    | some message =>
      rw [infoSet, accepted]
      exact List.take_of_length_le (by omega)
    | none =>
      rw [infoSet_eq size accepted] at rejected ⊢
      dsimp only at rejected ⊢
      split_ifs at rejected ⊢ with full empty long
      · obtain ⟨string, still⟩ := full_of_room full
        rw [string]
        by_contra changed
        have found : infoGet info ver ≠ [] := by
          intro none
          exact changed (withoutVer_of_none none)
        have ne : key ≠ ver := by
          rintro rfl
          exact still.1 (infoGet_withoutVer info)
        exact notVain ⟨accepted, ne, found, (full_withoutVer_iff ne).mp still⟩
      · exact absurd rfl rejected
      · rfl
      · exact absurd rfl rejected

/-- A value with a double quote is refused. -/
theorem infoSet_unchanged_iff_player :
    (infoSet playerInfo.string [110, 97, 109, 101] [34]).2 ≠ none ∧
    (infoSet playerInfo.string [110, 97, 109, 101] [34]).1 = playerInfo.string := by
  have rejected : (infoSet playerInfo.string [110, 97, 109, 101] [34]).2 ≠ none := by
    decide +kernel
  have refused : infoRefused [110, 97, 109, 101] [34] ≠ none := by decide
  have iff := infoSet_unchanged_iff playerInfo.string [110, 97, 109, 101] [34] playerInfo.size
  exact ⟨rejected, iff.mpr (fun vain => refused vain.1) rejected⟩

/-- A name of 4096 bytes does not fit, and `*ver` is lost. -/
theorem infoSet_loses_ver :
    ¬((infoSet playerInfo.string [110, 97, 109, 101] (List.replicate 4096 97)).2 ≠ none →
      (infoSet playerInfo.string [110, 97, 109, 101] (List.replicate 4096 97)).1 =
        playerInfo.string) := by
  have letters : ∀ c : Byte, c ≠ 97 → c ∉ List.replicate 4096 97 := by
    intro c ne mem
    exact ne (List.eq_of_mem_replicate mem)
  have accepted : infoRefused [110, 97, 109, 101] (List.replicate 4096 97) = none :=
    infoRefused_eq_none ⟨by decide, letters _ (by decide)⟩ ⟨by decide, letters _ (by decide)⟩
      (by decide)
  have vain : DropsInVain playerInfo.string [110, 97, 109, 101] (List.replicate 4096 97) := by
    refine ⟨accepted, by decide, by decide +kernel, by decide +kernel, ?_⟩
    have rest : (withoutVer playerInfo.string).length = 12 := by decide +kernel
    have old : (infoGet playerInfo.string [110, 97, 109, 101]).length = 6 := by decide +kernel
    rw [List.length_replicate, rest, old]
    decide
  intro unchanged
  rw [vain.infoSet playerInfo.size] at unchanged
  exact withoutVer_ne vain.2.2.1 (unchanged (Option.some_ne_none _))

end Qcvm.Stdlib

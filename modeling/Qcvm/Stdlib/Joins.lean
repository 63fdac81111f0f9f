import Qcvm.Stdlib.Builtins
import Qcvm.Stdlib.Separators
import Qcvm.Vm.StringTable

/-!
# Joining and splitting

`buf_implode` of `stdlib/strbuf.rs` joins the entries of a buffer with a glue, which it leaves out as long
as nothing has been put out. Splitting the result at the glue with `tokenizebyseparator` gives the entries
back but for empty ones at the start, exactly if the glue occurs nowhere else, and joining what a string
splits into gives the string back unless it starts with the glue.
-/

namespace Qcvm.Stdlib

open Lib

/-- The loop of `buf_implode` that builds the result. -/
def implodeInto (glue : List Byte) : List Byte → List (List Byte) → List Byte
  | out, [] => out
  | out, s :: strings => implodeInto glue ((if out.isEmpty then out else out ++ glue) ++ s) strings

/-- The result of `buf_implode`. -/
def implode (glue : List Byte) (strings : List (List Byte)) : List Byte := implodeInto glue [] strings

/-- The loop of `buf_implode` that sizes the result; `none` if there is no room for it. -/
def implodeTotal (fits : Nat → Bool) (glue : Nat) : Nat → List (List Byte) → Option Nat
  | total, [] => some total
  | total, s :: strings =>
    let total := (if 0 < total then total + glue else total) + s.length
    if fits total then implodeTotal fits glue total strings else none

/-- `Vm::ret_str`: the reference of a new temp string as the return value, and the table with it. -/
def retStr (table : Strings) (text : List Byte) : Except ErrorKind Raw × Strings :=
  match table.alloc text with
  | (.ok r, table) => (.ok (r, 0, 0), table)
  | (.error resource, table) => (.error (.outOfMemory resource), table)

/-- `buf_implode`: the return value and the table of temp strings behind it. -/
def bufImplode (table : Strings) (c : Containers) (a : Args) : Except ErrorKind Raw × Strings :=
  match c.bufArg a 0 with
  | none => (.ok zero, table)
  | some i =>
    let strings := ((Slots.get c.bufs i).elim [] StrBuf.strings).filterMap id
    match implodeTotal table.fits (a.str 1).length 0 strings with
    | none => (.error (.outOfMemory .tempStrings), table)
    | some _ => retStr table (implode (a.str 1) strings)

/-! ## Parts -/

/-- Parts with a glue between them. -/
def glued (glue : List Byte) : List (List Byte) → List Byte
  | [] => []
  | part :: parts => part ++ parts.flatMap (glue ++ ·)

/-- The glue occurs between the parts only: not in the last one, and in none of the others together with
the glue behind it, but for that. -/
def Parted (glue : List Byte) : List (List Byte) → Prop
  | [] => True
  | [last] => ∀ k < last.length, ¬glue <+: last.drop k
  | part :: next :: parts =>
    (∀ k < part.length, ¬glue <+: (part ++ glue).drop k) ∧ Parted glue (next :: parts)

section Parts

variable {glue out part next s : List Byte} {parts strings : List (List Byte)} {p : Nat}
  {list : List Token} {gaps : List (List Byte)}

lemma implodeInto_of_some (some : out ≠ []) :
    implodeInto glue out strings = out ++ strings.flatMap (glue ++ ·) := by
  induction strings generalizing out with
  | nil => exact (List.append_nil out).symm
  | cons s strings ih =>
    have there : out.isEmpty = false := List.isEmpty_eq_false_iff.mpr some
    unfold implodeInto
    rw [there, if_neg Bool.false_ne_true, ih (by simp [some]), List.flatMap_cons, List.append_assoc,
      List.append_assoc, List.append_assoc]

/-- Empty strings at the start leave no trace. -/
lemma implode_eq (glue : List Byte) (strings : List (List Byte)) :
    implode glue strings = glued glue (strings.dropWhile List.isEmpty) := by
  unfold implode
  induction strings with
  | nil => rfl
  | cons s strings ih =>
    unfold implodeInto
    cases s with
    | nil => exact ih
    | cons b s => exact implodeInto_of_some (List.cons_ne_nil b s)

lemma implodeInto_grows : out.length ≤ (implodeInto glue out strings).length := by
  induction strings generalizing out with
  | nil => exact Nat.le_refl _
  | cons s strings ih =>
    refine Nat.le_trans ?_ ih
    split
    next => simp
    next =>
      simp only [List.length_append]
      omega

/-- One round of the loop that sizes the result. -/
lemma length_round (glue out s : List Byte) :
    (if 0 < out.length then out.length + glue.length else out.length) + s.length =
      ((if out.isEmpty then out else out ++ glue) ++ s).length := by
  cases out with
  | nil => simp
  | cons b out =>
    simp only [List.length_cons, List.isEmpty_cons, List.length_append, Bool.false_eq_true, if_false]
    rw [if_pos (Nat.succ_pos _)]

/-- The result is refused if there is no room for it. -/
lemma implodeTotal_eq {fits : Nat → Bool} (antitone : ∀ m n, m ≤ n → fits n = true → fits m = true) :
    implodeTotal fits glue.length out.length strings =
      if strings = [] ∨ fits (implodeInto glue out strings).length = true then
        some (implodeInto glue out strings).length
      else none := by
  induction strings generalizing out with
  | nil => exact (if_pos (.inl rfl)).symm
  | cons s strings ih =>
    unfold implodeTotal implodeInto
    dsimp only
    rw [length_round]
    generalize (if out.isEmpty then out else out ++ glue) ++ s = out'
    rw [ih]
    by_cases here : fits out'.length = true
    · rw [if_pos here]
      cases strings with
      | nil => rw [if_pos (.inl rfl), if_pos (.inr here)]
      | cons t strings => simp only [List.cons_ne_nil, false_or]
    · have refused : ¬fits (implodeInto glue out' strings).length = true := fun room =>
        here (antitone _ _ implodeInto_grows room)
      rw [if_neg here, if_neg (not_or.mpr ⟨List.cons_ne_nil s strings, refused⟩)]

/-- A part is followed by the glue or ends the text. -/
lemma glued_cons (glue part next : List Byte) (parts : List (List Byte)) :
    glued glue (part :: next :: parts) = part ++ glue ++ glued glue (next :: parts) := by
  show part ++ (next :: parts).flatMap (glue ++ ·) = part ++ glue ++ (next ++ parts.flatMap (glue ++ ·))
  rw [List.flatMap_cons, List.append_assoc, List.append_assoc]

/-- Where the glue stands in a part that the text goes on after. -/
lemma prefix_drop_iff {k : Nat} (inside : k ≤ part.length) :
    glue <+: (part ++ glue ++ s).drop k ↔ glue <+: (part ++ glue).drop k := by
  rw [List.append_assoc, List.drop_append_of_le_length inside, List.drop_append_of_le_length inside,
    ← List.append_assoc]
  refine ⟨fun h => ?_, fun h => h.trans (List.prefix_append _ _)⟩
  refine List.prefix_of_prefix_length_le h (List.prefix_append _ _) ?_
  rw [List.length_append]
  omega

/-- The only separator is the one that matches. -/
lemma only_separator {sep : List Byte} {i : Nat} (first : FirstMatch s [glue] i sep) : sep = glue := by
  obtain ⟨pre, post, split, -⟩ := first
  have mem : sep ∈ [glue] := by
    rw [split]
    exact List.mem_append_right _ List.mem_cons_self
  exact List.mem_singleton.mp mem

/-- The tokens are the parts if the text is parted so. -/
lemma texts_of_parted (some : glue ≠ []) (alternates : Alternates s [glue] p list gaps)
    (rest : s.drop p = glued glue (part :: parts)) (parted : Parted glue (part :: parts)) :
    list.map Token.text = part :: parts := by
  induction alternates generalizing part parts with
  | @last p bound free =>
    cases parts with
    | nil =>
      have whole : s.extract p s.length = part := by
        rw [List.extract_eq_take_drop, ← List.length_drop, List.take_length, rest]
        exact List.append_nil part
      rw [List.map_cons, whole]
      rfl
    | cons next parts =>
      rw [glued_cons] at rest
      have long : part.length + glue.length ≤ s.length - p := by
        rw [← List.length_drop, rest, List.length_append, List.length_append]
        exact Nat.le_add_right _ _
      have pos := List.length_pos_iff.mpr some
      refine absurd ⟨some, ?_⟩ (free (p + part.length) (Nat.le_add_right _ _) (by omega) glue
        List.mem_cons_self)
      rw [← List.drop_drop, rest, List.append_assoc, List.drop_left]
      exact List.prefix_append _ _
  | @gap p e sep list gaps le free first _ ih =>
    have here := first.here
    obtain rfl := only_separator first
    obtain ⟨k, rfl⟩ := Nat.exists_eq_add_of_le le
    have stands := here.2
    rw [← List.drop_drop, rest] at stands
    cases parts with
    | nil =>
      have long := here.lt
      have length := congrArg List.length rest
      rw [List.length_drop, show glued sep [part] = part from List.append_nil part] at length
      rw [show glued sep [part] = part from List.append_nil part] at stands
      exact absurd stands (parted k (by omega))
    | cons next parts =>
      rw [glued_cons] at stands rest
      have stop : k = part.length := by
        rcases Nat.lt_trichotomy k part.length with less | same | more
        · exact absurd ((prefix_drop_iff (Nat.le_of_lt less)).mp stands) (parted.1 k less)
        · exact same
        · refine absurd ⟨some, ?_⟩ (free (p + part.length) (Nat.le_add_right _ _) (by omega) sep
            List.mem_cons_self)
          rw [← List.drop_drop, rest, List.append_assoc, List.drop_left]
          exact List.prefix_append _ _
      subst stop
      have text : s.extract p (p + part.length) = part := by
        rw [List.extract_eq_take_drop, Nat.add_sub_cancel_left, rest, List.append_assoc, List.take_left]
      have after : s.drop (p + part.length + sep.length) = glued sep (next :: parts) := by
        rw [← List.drop_drop, ← List.drop_drop, rest, List.append_assoc, List.drop_left, List.drop_left]
      rw [List.map_cons, text, ih after parted.2]

/-- Only a text that is parted so splits into the parts. -/
lemma parted_of_texts (some : glue ≠ []) (alternates : Alternates s [glue] p list gaps)
    (rest : s.drop p = glued glue (part :: parts)) (texts : list.map Token.text = part :: parts) :
    Parted glue (part :: parts) := by
  induction alternates generalizing part parts with
  | @last p bound free =>
    obtain ⟨-, none⟩ := List.cons.inj texts
    obtain rfl : parts = [] := none.symm
    rw [show glued glue [part] = part from List.append_nil part] at rest
    have length := congrArg List.length rest
    rw [List.length_drop] at length
    intro k lt stands
    refine free (p + k) (Nat.le_add_right _ _) (by omega) glue List.mem_cons_self ⟨some, ?_⟩
    rw [← List.drop_drop, rest]
    exact stands
  | @gap p e sep list gaps le free first alternates ih =>
    have here := first.here
    obtain rfl := only_separator first
    rw [List.map_cons] at texts
    obtain ⟨text, others⟩ := List.cons.inj texts
    have bound := here.lt
    have length : part.length = e - p := by
      rw [← text, List.extract_eq_take_drop, List.length_take, List.length_drop]
      omega
    cases parts with
    | nil =>
      have count := alternates.count
      rw [List.map_eq_nil_iff.mp others] at count
      cases count
    | cons next parts =>
      rw [glued_cons] at rest
      have after : s.drop (e + sep.length) = glued sep (next :: parts) := by
        have stop : e + sep.length = p + part.length + sep.length := by omega
        rw [stop, ← List.drop_drop, ← List.drop_drop, rest, List.append_assoc, List.drop_left,
          List.drop_left]
      refine ⟨fun k lt stands => ?_, ih after others⟩
      refine free (p + k) (Nat.le_add_right _ _) (by omega) sep List.mem_cons_self ⟨some, ?_⟩
      rw [← List.drop_drop, rest]
      exact (prefix_drop_iff (Nat.le_of_lt lt)).mpr stands

/-- What a text splits into joins to it. -/
lemma glued_texts (alternates : Alternates s [glue] p list gaps) :
    glued glue (list.map Token.text) = s.drop p := by
  induction alternates with
  | @last p bound free =>
    show s.extract p s.length ++ [] = _
    rw [List.append_nil, List.extract_eq_take_drop, ← List.length_drop, List.take_length]
  | @gap p e sep list gaps le free first alternates ih =>
    have here := first.here
    obtain rfl := only_separator first
    obtain ⟨k, rfl⟩ := Nat.exists_eq_add_of_le le
    obtain ⟨t, others, split'⟩ : ∃ t others, list = t :: others := by
      cases alternates with
      | last => exact ⟨_, _, rfl⟩
      | gap => exact ⟨_, _, rfl⟩
    rw [split', List.map_cons] at ih
    rw [split', List.map_cons, List.map_cons, glued_cons, ih]
    obtain ⟨tail, stands⟩ := here.2
    rw [← List.drop_drop, ← List.drop_drop, List.extract_eq_take_drop, Nat.add_sub_cancel_left]
    rw [← List.drop_drop] at stands
    rw [← stands, List.drop_left, List.append_assoc, stands, List.take_append_drop]

/-- Where the budget suffices, a text that is not empty splits from its start. -/
lemma exists_alternates (s : List Byte) (seps : List (List Byte)) :
    ∃ list gaps, Alternates s seps 0 list gaps ∧ ∃ unbounded, ∀ m, unbounded ≤ m →
      (splitBy s seps (.new m)).1 = if s = [] then [] else list := by
  have passed : Unseparated s seps 0 0 := fun i _ high => absurd high (Nat.not_lt_zero i)
  obtain ⟨gaps, alternates⟩ := alternates_piecesFrom le_rfl (Nat.zero_le s.length) passed
  refine ⟨_, gaps, alternates, (s.length - 0 + 1) * (tokenBytes * 2) + (s.length - 0), fun m le => ?_⟩
  obtain ⟨all, -⟩ := Budget.fit_of_total_le (b := .new m) rfl (alternates.total_le.trans le)
  rw [splitBy_eq]
  split_ifs with empty
  · rfl
  · exact all

/-- Room for a string is room for a shorter one. -/
lemma fits_antitone (table : Strings) (m n : Nat) (le : m ≤ n) (room : table.fits n = true) :
    table.fits m = true := by
  unfold Strings.fits Strings.paddedSize at room ⊢
  have room := of_decide_eq_true room
  exact decide_eq_true (by omega)

/-- A new temp string needs its bytes and a slot. -/
lemma retStr_eq {table : Strings} (exact : table.Exact) (text : List Byte) :
    (table.fits text.length = true ∧ ¬table.Full →
      ∃ r t, retStr table text = (.ok (r, 0, 0), t) ∧
        table.Stores ((Arr.ofList text).resize (Strings.paddedSize text.length) 0) r t) ∧
    (¬(table.fits text.length = true ∧ ¬table.Full) →
      retStr table text = (.error (.outOfMemory .tempStrings), table)) := by
  unfold retStr Strings.alloc
  refine ⟨fun ⟨fits, free⟩ => ?_, fun refused => ?_⟩
  · rw [if_pos fits]
    have room : table.bytes +
        ((Arr.ofList text).resize (Strings.paddedSize text.length) 0).size ≤ table.maxBytes := by
      have bound := of_decide_eq_true fits
      have le := exact.bytes_le
      rw [Arr.size_resize]
      unfold Strings.room at bound
      omega
    obtain ⟨slot, n, done, -⟩ := exact.allocRaw room free
    rw [done]
    exact ⟨_, _, rfl, (exact.allocRaw_ok done).2.1⟩
  · by_cases fits : table.fits text.length = true
    · have full : table.Full := not_not.mp fun free => refused ⟨fits, free⟩
      rw [if_pos fits, Strings.allocRaw_refused (.inr full)]
    · rw [if_neg fits]

/-- Sizing the result first refuses nothing that its temp string would not. -/
lemma bufImplode_eq {table : Strings} {c : Containers} {a : Args} {i : Nat} {buf : StrBuf}
    (arg : c.bufArg a 0 = some i) (here : Slots.get c.bufs i = some buf) (exact : table.Exact) :
    bufImplode table c a = retStr table (implode (a.str 1) (buf.strings.filterMap id)) := by
  unfold bufImplode
  rw [arg]
  dsimp only
  rw [here, Option.elim_some]
  have sized : implodeTotal table.fits (a.str 1).length 0 (buf.strings.filterMap id) =
      if buf.strings.filterMap id = [] ∨
        table.fits (implode (a.str 1) (buf.strings.filterMap id)).length = true
      then Option.some (implode (a.str 1) (buf.strings.filterMap id)).length else none :=
    @implodeTotal_eq (a.str 1) [] (buf.strings.filterMap id) table.fits (fits_antitone table)
  rw [sized]
  by_cases room : buf.strings.filterMap id = [] ∨
      table.fits (implode (a.str 1) (buf.strings.filterMap id)).length = true
  · rw [if_pos room]
  · rw [if_neg room]
    refine ((retStr_eq exact _).2 fun both => room (.inr both.1)).symm

/-- The tokens of a string that does not start with the glue do not start with an empty one. -/
lemma visible_texts (alternates : Alternates s [glue] 0 list gaps) (visible : s ≠ [])
    (away : ¬glue <+: s) : (list.map Token.text).dropWhile List.isEmpty = list.map Token.text := by
  cases alternates with
  | last bound free =>
    refine List.dropWhile_cons_of_neg ?_
    simpa using visible
  | @gap _ e sep list gaps le free first =>
    refine List.dropWhile_cons_of_neg ?_
    have stands := first.here
    rw [only_separator first] at stands
    have later : 0 < e := Nat.pos_of_ne_zero fun zero => away (by
      rw [zero] at stands
      exact stands.2)
    have inside := stands.lt
    rw [List.isEmpty_iff, List.extract_eq_take_drop]
    intro none
    have length := congrArg List.length none
    rw [List.length_take, List.length_drop, List.length_nil] at length
    omega

/-- **Joining and splitting.** `buf_implode` makes a temp string of the entries with the glue between them,
and fails exactly if the table has no bytes or no slot for it; split at the glue, the text gives the entries
back but for empty ones at the start, exactly if the glue occurs between them only. And what a string splits
into at a glue that it does not start with, joined by the glue, is the string. -/
theorem bufImplode_splits (maxSlots maxBytes : Nat) (ops : List StringsOp) {c : Containers} {a : Args}
    {i : Nat} {buf : StrBuf} (arg : c.bufArg a 0 = some i) (here : Slots.get c.bufs i = some buf)
    (some : a.str 1 ≠ []) :
    let table := (Strings.new maxSlots maxBytes).run ops
    let text := implode (a.str 1) (buf.strings.filterMap id)
    ((table.fits text.length = true ∧ ¬table.Full →
      ∃ r t, bufImplode table c a = (.ok (r, 0, 0), t) ∧
        table.Stores ((Arr.ofList text).resize (Strings.paddedSize text.length) 0) r t) ∧
    (¬(table.fits text.length = true ∧ ¬table.Full) →
      bufImplode table c a = (.error (.outOfMemory .tempStrings), table))) ∧
    (∃ unbounded, ∀ m, unbounded ≤ m →
      ((splitBy text [a.str 1] (.new m)).1.map Token.text =
          (buf.strings.filterMap id).dropWhile List.isEmpty ↔
        Parted (a.str 1) ((buf.strings.filterMap id).dropWhile List.isEmpty))) ∧
    ∀ s, ¬a.str 1 <+: s → ∃ unbounded, ∀ m, unbounded ≤ m →
      implode (a.str 1) ((splitBy s [a.str 1] (.new m)).1.map Token.text) = s := by
  intro table text
  have exact : table.Exact := (Strings.exact_run maxSlots maxBytes ops).1
  refine ⟨?_, ?_, fun s away => ?_⟩
  · rw [bufImplode_eq arg here exact]
    exact retStr_eq exact text
  · rw [show text = _ from implode_eq _ _]
    cases parts : (buf.strings.filterMap id).dropWhile List.isEmpty with
    | nil => exact ⟨0, fun m _ => iff_of_true rfl trivial⟩
    | cons part parts' =>
      have visible : part ≠ [] := by
        have head := List.head?_dropWhile_not List.isEmpty (buf.strings.filterMap id)
        rw [parts] at head
        exact List.isEmpty_eq_false_iff.mp head
      obtain ⟨list, gaps, alternates, unbounded, splits⟩ :=
        exists_alternates (glued (a.str 1) (part :: parts')) [a.str 1]
      refine ⟨unbounded, fun m le => ?_⟩
      rw [splits m le, if_neg (by
        intro empty
        exact visible (List.append_eq_nil_iff.mp empty).1)]
      exact ⟨parted_of_texts some alternates rfl, texts_of_parted some alternates rfl⟩
  · obtain ⟨list, gaps, alternates, unbounded, splits⟩ := exists_alternates s [a.str 1]
    refine ⟨unbounded, fun m le => ?_⟩
    rw [splits m le]
    split
    next empty =>
      rw [empty]
      rfl
    next visible =>
      have texts := glued_texts alternates
      rw [List.drop_zero] at texts
      rw [implode_eq]
      rw [visible_texts alternates visible away, texts]

/-- A buffer with two entries and a hole. -/
def twoEntries : Containers := ⟨[some ⟨[some [97], none, some [98]], 50⟩], [], none, ⟨[], 0⟩, 50⟩

/-- The handle of that buffer, and the glue. -/
def implodeArgs : Args := ⟨2, fun _ => [44], fun _ => 0, fun _ => 0, fun _ => false, fun _ => zero⟩

/-- The text of the buffer with two entries is stored and splits into them. -/
theorem bufImplode_splits_two :
    (∃ r t, bufImplode (Strings.new 4 64) twoEntries implodeArgs = (.ok (r, 0, 0), t) ∧
      (Strings.new 4 64).Stores ((Arr.ofList [97, 44, 98]).resize 4 0) r t) ∧
    bufImplode (Strings.new 4 0) twoEntries implodeArgs
      = (.error (.outOfMemory .tempStrings), Strings.new 4 0) ∧
    ∃ unbounded, ∀ m, unbounded ≤ m →
      (splitBy (implode [44] [[97], [98]]) [[44]] (.new m)).1.map Token.text = [[97], [98]] := by
  have stored := @bufImplode_splits 4 64 [] twoEntries implodeArgs 0
    ⟨[some [97], none, some [98]], 50⟩ rfl rfl (by decide)
  have refused := @bufImplode_splits 4 0 [] twoEntries implodeArgs 0
    ⟨[some [97], none, some [98]], 50⟩ rfl rfl (by decide)
  obtain ⟨unbounded, splits⟩ := stored.2.1
  have parted : Parted [44] [[97], [98]] := by
    unfold Parted Parted
    decide
  exact ⟨stored.1.1 (by decide), refused.1.2 (by decide),
    unbounded, fun m le => (splits m le).mpr parted⟩

end Parts

end Qcvm.Stdlib

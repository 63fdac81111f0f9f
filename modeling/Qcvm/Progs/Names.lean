import Qcvm.Progs.Sound

/-!
# The names of a program

Names are offsets into the string table and may share their suffixes, so the loader adds up their
lengths before it copies and hashes any (`check_name_bytes`). The window it looks for a NUL in
shrinks with what is still allowed, and still the check is exact: it succeeds if and only if the
lengths add up to no more (`checkNameBytes_eq_ok`). `scanNames` is the same check with the bytes it
looks at counted.
-/

namespace Qcvm

open Lib

/-- The length of a name: up to the NUL or the end of the table. -/
def nameLength (strings : Arr Byte) (ofs : Nat) : Nat := (cstrAt strings ofs).length

/-- `nulPosition`, and how many bytes it looks at. -/
def nulScan (data : Arr Byte) (off : Nat) : Nat → Option Nat × Nat
  | 0 => (none, 0)
  | n + 1 =>
    if data.get off == 0 then (some 0, 1)
    else
      let (position, looked) := nulScan data (off + 1) n
      (position.map (· + 1), looked + 1)

/-- `check_name_bytes`, and how many bytes it looks at. -/
def scanNames (strings : Arr Byte) : Nat → List Nat → Except LoadError Unit × Nat
  | _, [] => (.ok (), 0)
  | left, ofs :: names =>
    let rest := strings.size - ofs
    let window := min rest (left + 1)
    let (position, looked) := nulScan strings ofs window
    let len := match position with
      | some n => some n
      | none => if window = rest then some rest else none
    match len with
    | none => (.error .namesTooLarge, looked)
    | some len =>
      if len ≤ left then
        let (result, more) := scanNames strings (left - len) names
        (result, looked + more)
      else (.error .namesTooLarge, looked)

/-! ## One name -/

section

variable {strings : Arr Byte} {ofs n : Nat}

lemma nulScan_fst (data : Arr Byte) (off n : Nat) :
    (nulScan data off n).1 = nulPosition data off n := by
  induction n generalizing off with
  | zero => rfl
  | succ n ih =>
    rw [nulScan, nulPosition]
    split
    next => rfl
    next => exact congrArg (Option.map _) (ih (off + 1))

lemma nameLength_le : nameLength strings ofs ≤ strings.size - ofs := by
  unfold nameLength cstrAt Arr.takeUntil
  generalize strings.size - ofs = rest
  induction rest generalizing ofs with
  | zero => exact Nat.le_refl _
  | succ rest ih =>
    rw [Arr.takeUntil.go]
    split
    next => exact Nat.zero_le _
    next => exact Nat.succ_le_succ ih

/-- A NUL is found in a window if the name ends inside it, after as many bytes and the NUL. -/
lemma nulScan_eq (le : n ≤ strings.size - ofs) : nulScan strings ofs n =
    if nameLength strings ofs < n then (some (nameLength strings ofs), nameLength strings ofs + 1)
    else (none, n) := by
  unfold nameLength cstrAt Arr.takeUntil
  revert le
  generalize strings.size - ofs = rest
  intro le
  induction n generalizing ofs rest with
  | zero => rfl
  | succ n ih =>
    obtain ⟨rest, rfl⟩ : ∃ r, rest = r + 1 := ⟨rest - 1, by omega⟩
    rw [nulScan, Arr.takeUntil.go]
    by_cases nul : (strings.get ofs == 0) = true
    · rw [if_pos nul, if_pos nul]
      rfl
    · rw [if_neg nul, if_neg nul, ih rest (by omega), List.length_cons]
      by_cases inside : (Arr.takeUntil.go (· == 0) strings rest (ofs + 1)).length < n
      · rw [if_pos inside, if_pos (by omega)]
        rfl
      · rw [if_neg inside, if_neg (by omega)]
        rfl

end

/-- A name that still fits is taken off what is allowed, and looked at up to its NUL; one that does
not is looked at for as far as is allowed. -/
lemma scanNames_cons (strings : Arr Byte) (left ofs : Nat) (names : List Nat) :
    ∃ looked, looked ≤ min (nameLength strings ofs) left + 1 ∧
      scanNames strings left (ofs :: names) =
        if nameLength strings ofs ≤ left then
          ((scanNames strings (left - nameLength strings ofs) names).1,
            looked + (scanNames strings (left - nameLength strings ofs) names).2)
        else (.error .namesTooLarge, looked) := by
  have le : nameLength strings ofs ≤ strings.size - ofs := nameLength_le
  rw [scanNames]
  dsimp only
  rw [nulScan_eq (Nat.min_le_left _ _)]
  revert le
  generalize nameLength strings ofs = len
  generalize strings.size - ofs = rest
  obtain ⟨window, hw⟩ : ∃ window, min rest (left + 1) = window := ⟨_, rfl⟩
  intro le
  rw [hw]
  by_cases inside : len < window
  · have fits : len ≤ left := by omega
    rw [if_pos inside]
    refine ⟨len + 1, by omega, ?_⟩
    rw [if_pos fits]
    exact if_pos fits
  · rw [if_neg inside]
    dsimp only
    refine ⟨window, by omega, ?_⟩
    by_cases whole : window = rest
    · have same : rest = len := by omega
      rw [if_pos whole, same]
    · have long : ¬len ≤ left := by omega
      rw [if_neg whole, if_neg long]

/-! ## All names -/

lemma scanNames_fst (strings : Arr Byte) (left : Nat) (names : List Nat) :
    (scanNames strings left names).1 = checkNameBytes strings left names := by
  induction names generalizing left with
  | nil => rfl
  | cons ofs names ih =>
    rw [scanNames, checkNameBytes]
    dsimp only
    rw [nulScan_fst]
    have step (len : Nat) (looked : Nat) : (if len ≤ left then
        ((scanNames strings (left - len) names).1,
          looked + (scanNames strings (left - len) names).2)
        else (.error .namesTooLarge, looked)).1
          = if len ≤ left then checkNameBytes strings (left - len) names
            else .error .namesTooLarge := by
      rw [← ih]
      split
      next => rfl
      next => rfl
    cases nulPosition strings ofs (min (strings.size - ofs) (left + 1)) with
    | some n => exact step n _
    | none =>
      by_cases whole : min (strings.size - ofs) (left + 1) = strings.size - ofs
      · simp only [if_pos whole]
        exact step _ _
      · simp only [if_neg whole]

/-- The check succeeds exactly when the names add up to no more than is allowed. -/
theorem checkNameBytes_eq_ok (strings : Arr Byte) (left : Nat) (names : List Nat) :
    checkNameBytes strings left names = .ok () ↔ (names.map (nameLength strings)).sum ≤ left := by
  rw [← scanNames_fst]
  induction names generalizing left with
  | nil => exact ⟨fun _ => Nat.zero_le _, fun _ => rfl⟩
  | cons ofs names ih =>
    obtain ⟨looked, -, e⟩ := scanNames_cons strings left ofs names
    rw [e, List.map_cons, List.sum_cons]
    split
    next fits =>
      rw [ih]
      omega
    next long => exact ⟨nofun, fun le => absurd (Nat.le_trans (Nat.le_add_right _ _) le) long⟩

/-- It looks at no more bytes than are allowed, nor at more than the names have, and at one more for
each name. -/
theorem scanNames_le (strings : Arr Byte) (left : Nat) (names : List Nat) :
    (scanNames strings left names).2
      ≤ min (names.map (nameLength strings)).sum left + names.length := by
  induction names generalizing left with
  | nil => exact Nat.zero_le _
  | cons ofs names ih =>
    obtain ⟨looked, le, e⟩ := scanNames_cons strings left ofs names
    rw [e, List.map_cons, List.sum_cons, List.length_cons]
    split
    next fits =>
      have rest := ih (left - nameLength strings ofs)
      dsimp only
      omega
    next long =>
      dsimp only
      omega

/-! ## The maps of a program -/

/-- The names of a program, as the loader checks them. -/
def Program.names (p : Program) : List Nat :=
  p.functions.map (·.name) ++ p.globalDefs.map (·.name) ++ p.fieldDefs.map (·.name)

/-- The bytes of the names that are copied into the name maps and hashed. -/
def Program.hashedBytes (p : Program) : Nat :=
  ((p.functionsByName ++ p.globalsByName ++ p.fieldsByName).map (·.1.length)).sum

/-- The bytes that are looked at for them: every name with the byte that ends it, those of the
globals once more for the map from offsets. -/
def Program.scannedBytes (p : Program) : Nat :=
  ((p.names ++ p.globalDefs.map (·.name)).map fun ofs => nameLength p.strings ofs + 1).sum

/-- The parts of a parsed program that come from its names. -/
structure Program.Named (data : Arr Byte) (p : Program) : Prop where
  checked : checkNameBytes p.strings nameBytesMax p.names = .ok ()
  functions : p.functionsByName = nameMap (nameEntries 1 (p.functions.map (·.name))) p.strings
  globals : p.globalsByName = nameMap (nameEntries 0 (p.globalDefs.map (·.name))) p.strings
  fields : p.fieldsByName = nameMap (nameEntries 0 (p.fieldDefs.map (·.name))) p.strings
  /-- Records take at least as many bytes of the file. -/
  functions_le : 36 * p.functions.length ≤ data.size
  globals_le : 8 * p.globalDefs.length ≤ data.size
  fields_le : 8 * p.fieldDefs.length ≤ data.size

lemma length_canonicalFunctions (numStatements limit index : Nat) (copies : List ParamCopy)
    (raw : List RawFunction) :
    (canonicalFunctions numStatements limit index copies raw).1.length = raw.length := by
  induction raw generalizing index copies with
  | nil => rfl
  | cons r raw ih => exact congrArg (· + 1) (ih (index + 1) _)

lemma length_decodeDefs (bytes : Arr Byte) (format : ProgsFormat) (size : Nat) :
    (decodeDefs bytes format size).length = (records bytes size).length := List.length_map _

/-- The records of a section fit the file. -/
lemma length_records_le {data bytes : Arr Byte} {ofs count size least : Nat} {name : String}
    (e : fileSection data ofs count size name = .ok bytes) (le : least ≤ size) :
    least * (records bytes size).length ≤ data.size := by
  obtain ⟨length, inside⟩ := size_of_fileSection e
  have fits : bytes.size ≤ data.size := by
    by_cases empty : count = 0
    · rw [length, empty, Nat.zero_mul]
      exact Nat.zero_le _
    · rw [length]
      exact Nat.le_trans (Nat.le_add_left _ _) (inside empty)
  calc least * (records bytes size).length = least * (bytes.size / size) := by
        rw [records, List.length_map, List.length_range]
    _ ≤ size * (bytes.size / size) := Nat.mul_le_mul_right _ le
    _ ≤ bytes.size := Nat.mul_div_le _ _
    _ ≤ data.size := fits

/-- Every accepted file is named so. -/
lemma named {data : Arr Byte} {p : Program} (e : parse data = .ok p) : p.Named data := by
  unfold parse at e
  obtain ⟨⟨h, ext, format, notes⟩, -, e⟩ := bind_eq_ok.mp e
  obtain ⟨stmtBytes, -, e⟩ := bind_eq_ok.mp e
  obtain ⟨gdefBytes, gdefs, e⟩ := bind_eq_ok.mp e
  obtain ⟨fdefBytes, fdefs, e⟩ := bind_eq_ok.mp e
  obtain ⟨funcBytes, funcs, e⟩ := bind_eq_ok.mp e
  obtain ⟨strings, -, e⟩ := bind_eq_ok.mp e
  obtain ⟨globBytes, -, e⟩ := bind_eq_ok.mp e
  obtain ⟨⟨⟩, checked, e⟩ := bind_eq_ok.mp e
  cases e
  have defs : 8 ≤ (layout format).define := by cases format <;> decide
  have functions : 36 ≤ (layout format).function := by cases format <;> decide
  exact
    { checked := checked
      functions := rfl
      globals := rfl
      fields := rfl
      functions_le := by
        have length := length_canonicalFunctions h.numStatements (h.numGlobals + globalsTail) 0 []
          ((records funcBytes (layout format).function).map (decodeFunction format))
        rw [List.length_map] at length
        exact (congrArg (36 * ·) length).trans_le (length_records_le funcs functions)
      globals_le :=
        (congrArg (8 * ·) (length_decodeDefs ..)).trans_le (length_records_le gdefs defs)
      fields_le :=
        (congrArg (8 * ·) (length_decodeDefs ..)).trans_le (length_records_le fdefs defs) }

/-- The maps hold every name with its length; empty ones add nothing. -/
lemma sum_nameMap (entries : List (Nat × Nat)) (strings : Arr Byte) :
    ((nameMap entries strings).map (·.1.length)).sum
      = (entries.map fun entry => nameLength strings entry.2).sum := by
  induction entries with
  | nil => rfl
  | cons entry entries ih =>
    rw [List.map_cons, List.sum_cons, ← ih]
    unfold nameMap nameLength
    by_cases empty : cstrAt strings entry.2 = []
    · rw [List.filterMap_cons_none (by simp [empty]), empty, List.length_nil, Nat.zero_add]
    · rw [List.filterMap_cons_some (b := (cstrAt strings entry.2, entry.1)) (by simp [empty]),
        List.map_cons, List.sum_cons]

/-- A map of the names from an index on is no longer than they are. -/
lemma sum_nameEntries_le (first : Nat) (names : List Nat) (strings : Arr Byte) :
    ((nameMap (nameEntries first names) strings).map (·.1.length)).sum
      ≤ (names.map (nameLength strings)).sum := by
  have lengths : (nameEntries first names).map (fun entry => nameLength strings entry.2)
      = (names.map (nameLength strings)).drop first := by
    rw [nameEntries, List.map_drop]
    congr 1
    exact List.ext_getElem (by simp) fun i _ _ => by simp
  have parts : ((names.map (nameLength strings)).take first).sum
      + ((names.map (nameLength strings)).drop first).sum
        = (names.map (nameLength strings)).sum := by
    rw [← List.sum_append, List.take_append_drop]
  rw [sum_nameMap, lengths, ← parts]
  exact Nat.le_add_left _ _

lemma sum_length_succ (names : List Nat) (strings : Arr Byte) :
    (names.map fun ofs => nameLength strings ofs + 1).sum
      = (names.map (nameLength strings)).sum + names.length := by
  induction names with
  | nil => rfl
  | cons ofs names ih =>
    rw [List.map_cons, List.map_cons, List.sum_cons, List.sum_cons, ih, List.length_cons]
    omega

namespace Program.Named

variable {data : Arr Byte} {p : Program}

lemma sum_le (h : p.Named data) : (p.names.map (nameLength p.strings)).sum ≤ nameBytesMax :=
  (checkNameBytes_eq_ok _ _ _).mp h.checked

/-- A name takes a byte of the file at least. -/
lemma length_names_le (h : p.Named data) : p.names.length ≤ data.size := by
  have functions := h.functions_le
  have globals := h.globals_le
  have fields := h.fields_le
  simp only [names, List.length_append, List.length_map]
  omega

/-- The maps hold no more bytes than the check lets pass. -/
lemma hashedBytes_le (h : p.Named data) : p.hashedBytes ≤ nameBytesMax := by
  have total := h.sum_le
  have functions := sum_nameEntries_le 1 (p.functions.map (·.name)) p.strings
  have globals := sum_nameEntries_le 0 (p.globalDefs.map (·.name)) p.strings
  have fields := sum_nameEntries_le 0 (p.fieldDefs.map (·.name)) p.strings
  simp only [names, List.map_append, List.sum_append] at total
  unfold hashedBytes
  rw [h.functions, h.globals, h.fields]
  simp only [List.map_append, List.sum_append]
  omega

/-- Filling them looks at no more than the names and a byte of the file for each. -/
lemma scannedBytes_le (h : p.Named data) : p.scannedBytes ≤ 2 * nameBytesMax + data.size := by
  have total := h.sum_le
  have functions := h.functions_le
  have globals := h.globals_le
  have fields := h.fields_le
  unfold scannedBytes
  rw [sum_length_succ]
  simp only [names, List.map_append, List.sum_append, List.length_append, List.length_map]
    at total ⊢
  omega

end Program.Named

/-- The check of the names succeeds exactly when their lengths add up to no more than the limit, and
looks at no more bytes than that and one for each name. What the loader copies, hashes and looks at
after it is so bounded by the limit and the size of the file. -/
theorem checkNameBytes_exact (strings : Arr Byte) (names : List Nat) :
    (checkNameBytes strings nameBytesMax names = .ok () ↔
      (names.map (nameLength strings)).sum ≤ nameBytesMax) ∧
    (scanNames strings nameBytesMax names).1 = checkNameBytes strings nameBytesMax names ∧
    (scanNames strings nameBytesMax names).2 ≤ nameBytesMax + names.length ∧
    ∀ l : Loaded, l.program.names.length ≤ l.data.size ∧
      l.program.hashedBytes ≤ nameBytesMax ∧
      l.program.scannedBytes ≤ 2 * nameBytesMax + l.data.size := by
  refine ⟨checkNameBytes_eq_ok _ _ _, scanNames_fst _ _ _, ?_, fun l => ?_⟩
  · have looked := scanNames_le strings nameBytesMax names
    omega
  · have h := named l.parsed
    exact ⟨h.length_names_le, h.hashedBytes_le, h.scannedBytes_le⟩

end Qcvm

import Qcvm.Progs.Load

/-!
# The loader is sound

What the interpreter relies on and never checks again: in a program the loader accepted, operands of
statements name globals or the tail behind them, jumps stay in the statement table or go to its
sentinel, and the entries, locals and parameter copies of QuakeC functions are in range.
-/

namespace Qcvm

open Lib

/-- A sequence succeeds exactly if both of its parts do. -/
lemma bind_eq_ok {ε α β : Type} {x : Except ε α} {f : α → Except ε β} {b : β} :
    (x >>= f) = .ok b ↔ ∃ a, x = .ok a ∧ f a = .ok b := by
  cases x with
  | error e => exact ⟨nofun, fun ⟨_, h, _⟩ => nomatch h⟩
  | ok a =>
    constructor
    · intro h
      exact ⟨a, rfl, h⟩
    · rintro ⟨_, ⟨⟩, h⟩
      exact h

/-! ## Reading the file -/

/-- The statements of a file as they are stored, `CALLn` rewritten where Hexen 2 wants it. -/
def rawStatements (format : ProgsFormat) (bytes : Arr Byte) : List RawStatement :=
  let raw := (records bytes (layout format).statement).map (decodeStatement format)
  if usesHexen2Calls format raw then raw.map rewriteHexen2Call else raw

/-- The parts of a parsed program that come from its statements, globals and functions. -/
structure Parsed (data : Arr Byte) (p : Program) (h : Header) (format : ProgsFormat)
    (raw : List RawStatement) : Prop where
  header : ∃ ext notes, readHeader data = .ok (h, ext, format, notes)
  stored : ∃ bytes, fileSection data h.ofsStatements h.numStatements (layout format).statement
    "statement" = .ok bytes ∧ raw = rawStatements format bytes
  globals : p.globals.size = h.numGlobals
  statements : p.statements = .ofList (canonicalStatements format (h.numGlobals + globalsTail) raw)
  fileStatements : p.fileStatements = h.numStatements
  functions : ∃ records, canonicalFunctions h.numStatements (h.numGlobals + globalsTail) 0 [] records
    = (p.functions, p.paramCopies)
  pointerRelocs : p.pointerRelocs = (p.globalDefs.filter (isPointerReloc p.globals)).map (·.ofs)

/-- Every accepted file is parsed so. -/
lemma parsed {data : Arr Byte} {p : Program} (e : parse data = .ok p) :
    ∃ h format raw, Parsed data p h format raw := by
  unfold parse at e
  obtain ⟨⟨h, ext, format, notes⟩, header, e⟩ := bind_eq_ok.mp e
  obtain ⟨stmtBytes, stmts, e⟩ := bind_eq_ok.mp e
  obtain ⟨gdefBytes, -, e⟩ := bind_eq_ok.mp e
  obtain ⟨fdefBytes, -, e⟩ := bind_eq_ok.mp e
  obtain ⟨funcBytes, -, e⟩ := bind_eq_ok.mp e
  obtain ⟨strings, -, e⟩ := bind_eq_ok.mp e
  obtain ⟨globBytes, -, e⟩ := bind_eq_ok.mp e
  obtain ⟨_, -, e⟩ := bind_eq_ok.mp e
  cases e
  exact ⟨h, format, rawStatements format stmtBytes,
    { header := ⟨ext, notes, header⟩
      stored := ⟨stmtBytes, stmts, rfl⟩
      globals := rfl
      statements := rfl
      fileStatements := rfl
      functions := ⟨_, rfl⟩
      pointerRelocs := rfl }⟩

/-- The fields of a header are words. -/
lemma fields_le {data : Arr Byte} {start n : Nat} {words : List Nat}
    (e : fields data start n = .ok words) : ∀ w ∈ words, w ≤ u32Max := by
  unfold fields at e
  have each (f : Nat → Except LoadError Nat) (le : ∀ i w, f i = .ok w → w ≤ u32Max) :
      ∀ (l words : List Nat), l.mapM f = .ok words → ∀ w ∈ words, w ≤ u32Max := by
    intro l
    induction l with
    | nil =>
      intro words e
      rw [List.mapM_nil] at e
      cases e
      exact fun _ h => absurd h List.not_mem_nil
    | cons i l ih =>
      intro words e
      rw [List.mapM_cons] at e
      obtain ⟨w, first, e⟩ := bind_eq_ok.mp e
      obtain ⟨ws, rest, e⟩ := bind_eq_ok.mp e
      cases e
      intro v mem
      rcases List.mem_cons.mp mem with rfl | mem
      · exact le i v first
      · exact ih ws rest v mem
  refine each _ (fun i w read => ?_) _ _ e
  split at read
  next word _ =>
    cases read
    have := word.isLt
    unfold u32Max
    omega
  next => cases read

/-- A word of a list of words is a word. -/
lemma getD_le {words : List Nat} (h : ∀ w ∈ words, w ≤ u32Max) (i : Nat) :
    words.getD i 0 ≤ u32Max := by
  rcases Nat.lt_or_ge i words.length with lt | ge
  · rw [List.getD_eq_getElem _ _ lt]
    exact h _ (List.getElem_mem lt)
  · rw [List.getD_eq_default _ _ ge]
    exact Nat.zero_le _

/-- The counts of a header fit a `u32`. -/
lemma header_le {data : Arr Byte} {h : Header} {ext : Option ExtHeader} {format : ProgsFormat}
    {notes : List LoadNote} (e : readHeader data = .ok (h, ext, format, notes)) :
    h.numStatements ≤ u32Max ∧ h.numGlobals ≤ u32Max := by
  unfold readHeader at e
  obtain ⟨words, read, e⟩ := bind_eq_ok.mp e
  have le := fields_le read
  have same : h = Header.ofWords words := by
    dsimp only at e
    split at e
    next =>
      cases e
      rfl
    next =>
      cases e
      rfl
    next =>
      obtain ⟨f, -, e⟩ := bind_eq_ok.mp e
      split at e
      next =>
        split at e
        next => cases e
        next =>
          cases e
          rfl
      next =>
        cases e
        rfl
    next => cases e
  rw [same]
  exact ⟨getD_le le 3, getD_le le 13⟩

/-- There are as many statements as fit the section. -/
lemma length_rawStatements (format : ProgsFormat) (bytes : Arr Byte) :
    (rawStatements format bytes).length = bytes.size / (layout format).statement := by
  unfold rawStatements
  dsimp only
  split <;> simp [records]

namespace Parsed

variable {data : Arr Byte} {p : Program} {h : Header} {format : ProgsFormat}
  {raw : List RawStatement}

/-- The number of statements is a word. -/
lemma numStatements_le (q : Parsed data p h format raw) : h.numStatements ≤ u32Max := by
  obtain ⟨_, _, read⟩ := q.header
  exact (header_le read).1

/-- The number of globals is a word. -/
lemma numGlobals_le (q : Parsed data p h format raw) : h.numGlobals ≤ u32Max := by
  obtain ⟨_, _, read⟩ := q.header
  exact (header_le read).2

/-- Every statement of the header's count is read. -/
lemma length_raw (q : Parsed data p h format raw) : raw.length = h.numStatements := by
  obtain ⟨bytes, read, rfl⟩ := q.stored
  rw [length_rawStatements, (size_of_fileSection read).1,
    Nat.mul_div_cancel _ (statement_pos format)]

/-- The statements are those of the file and a sentinel. -/
lemma size_statements (q : Parsed data p h format raw) :
    p.statements.size = h.numStatements + 1 := by
  rw [q.statements, Arr.size_ofList, canonicalStatements, List.length_append, List.length_mapIdx,
    q.length_raw]
  rfl

/-- The statement after the last is the sentinel. -/
lemma sentinel (q : Parsed data p h format raw) :
    p.statements.get h.numStatements = .sentinel := by
  have len := q.length_raw
  rw [q.statements, canonicalStatements, Arr.ofList, Arr.get_tabulate _ (by simp [len]),
    List.getD_append_right _ _ _ _ (by simp [len])]
  simp [len]

/-- Every other statement is the canonical form of a stored one. -/
lemma statement (q : Parsed data p h format raw) {i : Nat} {s : RawStatement}
    (stored : raw[i]? = some s) : p.statements.get i
      = (canonicalStatement format (h.numGlobals + globalsTail) h.numStatements i s).1 := by
  have lt := (List.getElem?_eq_some_iff.mp stored).1
  have size : i < (canonicalStatements format (h.numGlobals + globalsTail) raw).length := by
    rw [canonicalStatements, List.length_append, List.length_mapIdx]
    omega
  rw [q.statements, Arr.ofList, Arr.get_tabulate _ size, canonicalStatements, q.length_raw,
    List.getD_append _ _ _ _ (by simpa using lt), List.getD_eq_getElem _ _ (by simpa using lt),
    List.getElem_mapIdx, (List.getElem?_eq_some_iff.mp stored).2]

end Parsed

/-! ## Statements -/

/-- One operand of a stored statement. -/
def RawStatement.operand (s : RawStatement) : Slot → Nat
  | .a => s.a
  | .b => s.b
  | .c => s.c

/-- An operand of a kind that must name a global does not, or its byte offset does not fit. -/
def Misplaced (limit : Nat) (kind : Operand) (value : Nat) : Prop :=
  match kind with
  | .global | .unused => limit ≤ value ∨ u32Max < value * 4
  | .globalIndex => limit ≤ value
  | .jump | .immediate => False

/-- A canonical operand is in range. -/
def Placed (limit count : Nat) (kind : Operand) (value : Nat) : Prop :=
  match kind with
  | .global | .unused => ∃ w < limit, value = 4 * w ∧ 4 * w ≤ u32Max
  | .globalIndex => value < limit
  | .jump => value ≤ count
  | .immediate => True

/-- All operands of a statement are in range. -/
def Stmt.Placed (limit count : Nat) (st : Stmt) : Prop :=
  ∀ s, Qcvm.Placed limit count (st.op.operand s) (st.operand s)

/-- An operand is bad exactly if it is misplaced. -/
lemma decodeOperand_eq_bad {wide : Bool} {limit count index value : Nat} {kind : Operand} :
    decodeOperand wide limit count index kind value = .bad ↔ Misplaced limit kind value := by
  cases kind with
  | global | unused =>
    simp only [decodeOperand, Misplaced, checkedMul]
    split
    next byte mul =>
      split at mul
      next le =>
        split
        next lt =>
          simp only [reduceCtorEq, false_iff]
          omega
        next ge =>
          simp only [true_iff]
          omega
      next => cases mul
    next mul =>
      split at mul
      next => cases mul
      next atop =>
        simp only [true_iff]
        omega
  | globalIndex =>
    simp only [decodeOperand, Misplaced]
    split
    next lt =>
      simp only [reduceCtorEq, false_iff]
      omega
    next ge =>
      simp only [true_iff]
      omega
  | jump =>
    simp only [decodeOperand, Misplaced, iff_false]
    split <;> simp
  | immediate => simp [decodeOperand, Misplaced]

/-- A decoded operand is in range. -/
lemma placed_decodeOperand {wide : Bool} {limit count index value : Nat} {kind : Operand}
    (ok : decodeOperand wide limit count index kind value ≠ .bad) :
    Placed limit count kind ((decodeOperand wide limit count index kind value).get count) := by
  have inside := mt decodeOperand_eq_bad.mpr ok
  cases kind with
  | global | unused =>
    simp only [Misplaced, not_or] at inside
    have mul : checkedMul value 4 = some (value * 4) := checkedMul_eq_some.mpr ⟨by omega, rfl⟩
    have lt : value < limit := by omega
    simp only [decodeOperand, mul, if_pos lt, Decoded.get]
    exact ⟨value, lt, Nat.mul_comm _ _, by omega⟩
  | globalIndex =>
    have lt : value < limit := Nat.lt_of_not_le inside
    simp only [decodeOperand, if_pos lt, Decoded.get]
    exact lt
  | jump =>
    simp only [decodeOperand, Placed]
    split
    next target =>
      simp only [Decoded.get]
      omega
    next => exact Nat.le_refl _
  | immediate => trivial

/-- An unused operand is placed. -/
lemma placed_unused {limit count : Nat} (pos : 0 < limit) : Placed limit count .unused 0 :=
  ⟨0, pos, rfl, Nat.zero_le _⟩

/-- A statement replaced by a poison is placed. -/
lemma placed_poison {limit count : Nat} (pos : 0 < limit) (flags : Bool) :
    (Stmt.poison flags).Placed limit count := by
  intro s
  cases s <;> exact placed_unused pos

/-- The sentinel is placed. -/
lemma placed_sentinel {limit count : Nat} (pos : 0 < limit) :
    Stmt.Placed limit count .sentinel := by
  intro s
  cases s <;> exact placed_unused pos

section Canonical

variable {format : ProgsFormat} {limit count index : Nat} {s : RawStatement}

/-- A statement is poisoned exactly when its opcode is unknown or an operand is misplaced. -/
lemma canonicalStatement_eq_poison :
    (canonicalStatement format limit count index s).1 = .poison (hasBreakpoint s.op) ↔
      282 ≤ opcodeNumber s.op ∨
        ∃ slot, Misplaced limit ((Op.fromU32 (opcodeNumber s.op)).operand slot) (s.operand slot) := by
  unfold canonicalStatement
  dsimp only
  split
  next good =>
    obtain ⟨op, a, b, c⟩ := good
    constructor
    · intro e
      exact absurd (congrArg Stmt.op e) op
    · rintro (unknown | ⟨slot, misplaced⟩)
      · exact absurd (Op.fromU32_eq_bad.mpr unknown) op
      · cases slot with
        | a => exact absurd (decodeOperand_eq_bad.mpr misplaced) a
        | b => exact absurd (decodeOperand_eq_bad.mpr misplaced) b
        | c => exact absurd (decodeOperand_eq_bad.mpr misplaced) c
  next bad =>
    refine ⟨fun _ => ?_, fun _ => rfl⟩
    by_contra none
    simp only [not_or, not_exists] at none
    obtain ⟨known, placed⟩ := none
    refine bad ⟨fun e => known (Op.fromU32_eq_bad.mp e), ?_, ?_, ?_⟩
    · exact fun e => placed .a (decodeOperand_eq_bad.mp e)
    · exact fun e => placed .b (decodeOperand_eq_bad.mp e)
    · exact fun e => placed .c (decodeOperand_eq_bad.mp e)

/-- A canonical statement is placed. -/
lemma placed_canonicalStatement (pos : 0 < limit) :
    (canonicalStatement format limit count index s).1.Placed limit count := by
  unfold canonicalStatement
  dsimp only
  split
  next good =>
    obtain ⟨-, a, b, c⟩ := good
    intro slot
    cases slot with
    | a => exact placed_decodeOperand a
    | b => exact placed_decodeOperand b
    | c => exact placed_decodeOperand c
  next => exact placed_poison pos _

end Canonical

/-! ## Functions -/

/-- A parameter copy stays below the end of the globals. -/
def ParamCopy.Placed (limit : Nat) (c : ParamCopy) : Prop :=
  (∃ w < limit, c.src = 4 * w) ∧ ∃ w < limit, c.dst = 4 * w

/-- The entry and the locals of a QuakeC function are in range. -/
def Function.Placed (numStatements limit : Nat) (f : Function) : Prop :=
  ∀ entry, f.kind = .quakeC entry → entry < numStatements ∧ f.parmStart + f.locals ≤ limit

/-- The copies of a parameter's words are placed. -/
lemma placed_planWords {limit slotBase word dst left : Nat} {copies : List ParamCopy}
    (e : planWords limit slotBase word dst left = some copies) : ∀ c ∈ copies, c.Placed limit := by
  induction left generalizing word dst copies with
  | zero =>
    cases e
    exact fun _ h => nomatch h
  | succ left ih =>
    simp only [planWords] at e
    split at e
    next => cases e
    next inside =>
      split at e
      next => cases e
      next =>
        split at e
        next src dstByte mulSrc mulDst =>
          obtain ⟨rest, planned, rfl⟩ := Option.map_eq_some_iff.mp e
          obtain ⟨-, rfl⟩ := checkedMul_eq_some.mp mulSrc
          obtain ⟨-, rfl⟩ := checkedMul_eq_some.mp mulDst
          intro c mem
          rcases List.mem_cons.mp mem with rfl | mem
          · exact ⟨⟨slotBase + word, by omega, Nat.mul_comm _ _⟩, ⟨dst, by omega, Nat.mul_comm _ _⟩⟩
          · exact ih planned c mem
        next => cases e

/-- The copies of a function's parameters are placed. -/
lemma placed_planParams {limit slot dst : Nat} {sizes : List Nat} {copies : List ParamCopy}
    (e : planParams limit slot dst sizes = some copies) : ∀ c ∈ copies, c.Placed limit := by
  induction sizes generalizing slot dst copies with
  | nil =>
    cases e
    exact fun _ h => nomatch h
  | cons size sizes ih =>
    simp only [planParams] at e
    obtain ⟨first, words, e⟩ := Option.bind_eq_some_iff.mp e
    obtain ⟨rest, others, e⟩ := Option.bind_eq_some_iff.mp e
    cases e
    intro c mem
    rcases List.mem_append.mp mem with mem | mem
    · exact placed_planWords words c mem
    · exact ih others c mem

/-- The copies planned for a function are placed, and so are its locals. -/
lemma placed_planParamCopies {raw : RawFunction} {limit : Nat} {copies : List ParamCopy}
    (e : planParamCopies raw limit = some copies) :
    raw.parmStart + raw.locals ≤ limit ∧ ∀ c ∈ copies, c.Placed limit := by
  unfold planParamCopies at e
  split at e
  next => cases e
  next within => exact ⟨Nat.le_of_not_lt within, placed_planParams e⟩

/-- A canonical function is placed. -/
lemma placed_canonicalFunction {index numStatements limit : Nat} {raw : RawFunction}
    {copies : List ParamCopy} (placed : ∀ c ∈ copies, c.Placed limit) :
    (canonicalFunction index raw numStatements limit copies).1.Placed numStatements limit ∧
      ∀ c ∈ (canonicalFunction index raw numStatements limit copies).2, c.Placed limit := by
  unfold canonicalFunction
  dsimp only
  split
  next => exact ⟨nofun, placed⟩
  next =>
    split
    next =>
      split
      next => exact ⟨nofun, placed⟩
      next entry =>
        split
        next planned plan =>
          obtain ⟨within, copied⟩ := placed_planParamCopies plan
          refine ⟨?_, fun c mem => ?_⟩
          · rintro _ ⟨⟩
            exact ⟨Nat.lt_of_not_le entry, within⟩
          · rcases List.mem_append.mp mem with mem | mem
            · exact placed c mem
            · exact copied c mem
        next => exact ⟨nofun, fun c mem => placed c (List.mem_of_mem_take mem)⟩
    next => split <;> exact ⟨nofun, placed⟩

/-- All canonical functions are placed. -/
lemma placed_canonicalFunctions {numStatements limit index : Nat} {raw : List RawFunction}
    {copies all : List ParamCopy} {functions : List Function}
    (placed : ∀ c ∈ copies, c.Placed limit)
    (e : canonicalFunctions numStatements limit index copies raw = (functions, all)) :
    (∀ f ∈ functions, f.Placed numStatements limit) ∧ ∀ c ∈ all, c.Placed limit := by
  induction raw generalizing index copies functions all with
  | nil =>
    cases e
    exact ⟨fun _ mem => absurd mem List.not_mem_nil, placed⟩
  | cons r raw ih =>
    obtain ⟨first, kept⟩ : (canonicalFunction index r numStatements limit copies).1.Placed
        numStatements limit ∧
          ∀ c ∈ (canonicalFunction index r numStatements limit copies).2, c.Placed limit :=
      placed_canonicalFunction placed
    injection e with functions all
    subst functions all
    obtain ⟨rest, copied⟩ := ih kept rfl
    refine ⟨fun f mem => ?_, copied⟩
    rcases List.mem_cons.mp mem with rfl | mem
    · exact first
    · exact rest f mem

/-! ## Programs -/

/-- What the interpreter relies on. -/
structure Program.Sound (p : Program) : Prop where
  globals_le : p.globals.size ≤ u32Max
  count_le : p.fileStatements ≤ u32Max
  size : p.statements.size = p.fileStatements + 1
  sentinel : p.statements.get p.fileStatements = .sentinel
  placed : ∀ i < p.statements.size,
    (p.statements.get i).Placed (p.globals.size + globalsTail) p.fileStatements
  functions : ∀ f ∈ p.functions, f.Placed p.fileStatements (p.globals.size + globalsTail)
  copies : ∀ c ∈ p.paramCopies, c.Placed (p.globals.size + globalsTail)

/-- A program that is parsed is sound. -/
lemma Parsed.sound {data : Arr Byte} {p : Program} {h : Header} {format : ProgsFormat}
    {raw : List RawStatement} (q : Parsed data p h format raw) : p.Sound := by
  obtain ⟨_, functions⟩ := q.functions
  obtain ⟨placed, copied⟩ :=
    placed_canonicalFunctions (fun _ mem => absurd mem List.not_mem_nil) functions
  have count := q.fileStatements
  have globals := q.globals
  refine ⟨?_, ?_, ?_, ?_, ?_, ?_, ?_⟩
  · rw [globals]
    exact q.numGlobals_le
  · rw [count]
    exact q.numStatements_le
  · rw [count]
    exact q.size_statements
  · rw [count]
    exact q.sentinel
  · intro i lt
    rw [globals, count]
    rw [q.size_statements] at lt
    rcases Nat.lt_or_ge i h.numStatements with inside | last
    · have lt : i < raw.length := by
        rw [q.length_raw]
        exact inside
      have stored : raw[i]? = some raw[i] := List.getElem?_eq_getElem lt
      rw [q.statement stored]
      exact placed_canonicalStatement (by unfold globalsTail; omega)
    · rw [show i = h.numStatements by omega, q.sentinel]
      exact placed_sentinel (by unfold globalsTail; omega)
  · rw [globals, count]
    exact placed
  · rw [globals]
    exact copied

/-- Every loaded program is sound. -/
theorem Loaded.sound (l : Loaded) : l.program.Sound := by
  obtain ⟨_, _, _, q⟩ := Qcvm.parsed l.parsed
  exact q.sound

end Qcvm

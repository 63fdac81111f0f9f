import Qcvm.Vm.Linked
import Qcvm.Vm.Rules

/-!
# The blocks of region S

Region S holds the strings and the globals of the main progs, then the local stack, then the strings
and the globals of every added progs, each followed by the words no operand reaches. The blocks lie
one behind the other in the order the progs were loaded, on word boundaries.
-/

namespace Qcvm

open Lib

/-- Bytes the strings of a program take up, with those that align the globals. -/
def Program.stringBytes (p : Program) : Nat := (p.strings.size + 4) / 4 * 4

/-- Where the strings of a progs start. -/
def ProgsState.sbase (ps : ProgsState) : Nat := ps.gbase - ps.program.stringBytes

/-- Where the words behind the globals of a progs end. -/
def ProgsState.finish (ps : ProgsState) : Nat := ps.gbase + 4 * (ps.numGlobals + 5)

/-- Where the local stack ends, with the word behind it. -/
def Memory.lsEnd (m : Memory) : Nat := m.lsBase + 4 * m.lsWords + 4

/-- The block of a progs starts with its strings, on a word boundary. -/
structure ProgsState.Based (ps : ProgsState) : Prop where
  start : ps.sbase + ps.program.stringBytes = ps.gbase
  aligned : 4 ∣ ps.gbase

/-- The main progs comes first, then the local stack, then the other progs. -/
structure Memory.Headed (m : Memory) (main : ProgsState) (rest : List ProgsState) : Prop where
  start : main.sbase = 0
  lsBase : m.lsBase = main.gbase + 4 * (main.numGlobals + 3)
  lsWords : 16 ≤ m.lsWords
  lsEnd : m.lsEnd ≤ m.s.size
  rest : ∀ ps ∈ rest, m.lsEnd ≤ ps.sbase

/-- The blocks of region S lie one behind the other. -/
structure Core.Blocks (core : Core) : Prop extends core.Linked where
  based : ∀ ps ∈ core.progs, ps.Based
  headed : ∃ main rest, core.progs = main :: rest ∧ core.mem.Headed main rest
  ordered : core.progs.Pairwise fun a b => a.finish ≤ b.sbase
  shared : ∃ names : List (List Byte), ∀ ps ∈ core.progs, ps.shared = names.map (sharedGlobal ps)

namespace ProgsState

variable {ps : ProgsState}

lemma Based.share (b : ps.Based) (names : List (List Byte)) : (ps.share names).Based :=
  ⟨b.start, b.aligned⟩

lemma Based.sbase_le (b : ps.Based) : ps.sbase + ps.program.strings.size < ps.gbase := by
  have start := b.start
  unfold Program.stringBytes at start
  omega

lemma based_new (program : Program) {sbase gbase : Nat} (callees : List Callee)
    (state : StateHandles) (aligned : 4 ∣ sbase)
    (at' : gbase = (sbase + program.strings.size + 4) / 4 * 4) :
    (ProgsState.new program gbase callees state).Based ∧
      (ProgsState.new program gbase callees state).sbase = sbase := by
  have bytes : sbase + program.stringBytes = gbase := by
    unfold Program.stringBytes
    omega
  have start : (ProgsState.new program gbase callees state).sbase = sbase := by
    show gbase - program.stringBytes = sbase
    omega
  refine ⟨⟨?_, ?_⟩, start⟩
  · rw [start]
    exact bytes
  · show 4 ∣ gbase
    omega

end ProgsState

namespace Core

variable {core core' : Core}

/-- Registering the shared globals of a progs changes nothing else about the progs. -/
lemma progs_registerShared (core : Core) {pr : Nat} (lt : pr < core.progs.length) :
    ∃ names, (core.registerShared pr).progs = core.progs.map (·.share names) := by
  unfold registerShared
  rw [List.getElem?_eq_getElem lt]
  exact ⟨_, rfl⟩

/-- The progs that is added. -/
def nextProgs (core : Core) (program : Program) (builtins : Builtins) (fields : FieldTable) :
    ProgsState :=
  .new program (core.nextGlobals program) (bind program builtins)
    (stateHandles program (core.nextGlobals program) fields)

/-- The progs of a core that got another one. -/
lemma progs_joined (core : Core) (F : FloatOps) (program : Program) (builtins : Builtins)
    (map : FieldMap) (fields : FieldTable) (fieldBytes : Nat) :
    ∃ names, (core.joined F program builtins map fields fieldBytes).progs
      = (core.progs ++ [core.nextProgs program builtins fields]).map (·.share names) := by
  unfold joined
  refine progs_registerShared _ ?_
  simp only [List.length_append, List.length_singleton]
  omega

lemma length_joined {F : FloatOps} {program : Program} {builtins : Builtins} {map : FieldMap}
    {fields : FieldTable} {fieldBytes : Nat} :
    (core.joined F program builtins map fields fieldBytes).progs.length = core.progs.length + 1 := by
  obtain ⟨names, progs⟩ := core.progs_joined F program builtins map fields fieldBytes
  rw [progs, List.length_map, List.length_append, List.length_singleton]

/-- A progs that was loaded before another ends before its strings. -/
lemma Blocks.before (b : core.Blocks) {i j : Nat} {p q : ProgsState} (first : core.progs[i]? = some p)
    (second : core.progs[j]? = some q) (lt : i < j) : p.finish ≤ q.sbase := by
  obtain ⟨hi, rfl⟩ := List.getElem?_eq_some_iff.mp first
  obtain ⟨hj, rfl⟩ := List.getElem?_eq_some_iff.mp second
  exact List.pairwise_iff_getElem.mp b.ordered i j hi hj lt

/-- The globals of a progs lie before the local stack or behind it. -/
lemma Blocks.stack_apart (b : core.Blocks) {ps : ProgsState} (mem : ps ∈ core.progs) :
    ps.gbase + 4 * (ps.numGlobals + 3) ≤ core.mem.lsBase ∨ core.mem.lsEnd ≤ ps.gbase := by
  obtain ⟨main, rest, e, h⟩ := b.headed
  rw [e] at mem
  rcases List.mem_cons.mp mem with rfl | mem
  · exact .inl (Nat.le_of_eq h.lsBase.symm)
  · exact .inr (Nat.le_trans (h.rest ps mem) (Nat.sub_le _ _))

/-- Nothing but the progs and the place of the local stack matters. -/
lemma Blocks.of_eq (b : core.Blocks) (progs : core'.progs = core.progs)
    (size : core'.mem.s.size = core.mem.s.size) (lsBase : core'.mem.lsBase = core.mem.lsBase)
    (lsWords : core'.mem.lsWords = core.mem.lsWords) : core'.Blocks := by
  have lsEnd : core'.mem.lsEnd = core.mem.lsEnd := by unfold Memory.lsEnd; rw [lsBase, lsWords]
  refine ⟨⟨?_, ?_, ?_⟩, ?_, ?_, ?_, ?_⟩
  · rw [progs, size]
    exact b.progs
  · rw [progs]
    exact b.main
  · rw [progs, size]
    exact b.added
  · rw [progs]
    exact b.based
  · obtain ⟨main, rest, e, h⟩ := b.headed
    refine ⟨main, rest, progs.trans e, h.start, ?_, ?_, ?_, ?_⟩
    · rw [lsBase]
      exact h.lsBase
    · rw [lsWords]
      exact h.lsWords
    · rw [lsEnd, size]
      exact h.lsEnd
    · rw [lsEnd]
      exact h.rest
  · rw [progs]
    exact b.ordered
  · rw [progs]
    exact b.shared

/-- `build_core` starts with the block of the main progs and the local stack. -/
lemma blocks_buildCore {main : Loaded} {builtins : Builtins} {config : VmConfig}
    (e : buildCore main.program builtins config = .ok core) : core.Blocks := by
  obtain ⟨sp, b⟩ := built e
  have size : core.mem.s.size = sp.sLen := congrArg Memory.Shape.sSize b.shape
  have lsBase : core.mem.lsBase = sp.lsBase := congrArg Memory.Shape.lsBase b.shape
  have lsWords : core.mem.lsWords = sp.lsWords := congrArg Memory.Shape.lsWords b.shape
  have planned := b.planned
  have wide := planned.lsWords
  have stack := planned.lsBase
  have finish := planned.sLen
  have gbase : sp.gbase = (0 + main.program.strings.size + 4) / 4 * 4 := by
    rw [planned.gbase]
    unfold alignUp
    omega
  obtain ⟨based, start⟩ := ProgsState.based_new main.program (bind main.program builtins)
    (stateHandles main.program sp.gbase (mainFields main.program)) (Nat.dvd_zero 4) gbase
  have linked : (mainProgs main.program builtins sp.gbase core.shared).Linked core.mem.s.size := by
    refine (ProgsState.Linked.new main _ _ ?_).withShared _
    rw [size]
    omega
  refine ⟨⟨?_, ?_, ?_⟩, ?_, ⟨_, [], b.progs, start, ?_, ?_, ?_, ?_⟩, ?_, core.shared, ?_⟩
  · rw [b.progs]
    simpa using linked
  · rw [b.progs]
    exact List.cons_ne_nil _ _
  · exact .inl (by rw [b.progs]; rfl)
  · rw [b.progs]
    simp only [List.mem_singleton, forall_eq]
    exact based.share _
  · rw [lsBase, stack]
    rfl
  · omega
  · unfold Memory.lsEnd
    omega
  · exact fun _ mem => absurd mem List.not_mem_nil
  · rw [b.progs]
    exact List.pairwise_singleton _ _
  · rw [b.progs]
    simp only [List.mem_singleton, forall_eq]
    rfl

/-- A block behind all others. -/
lemma Blocks.append (b : core.Blocks) {ps : ProgsState} {names : List (List Byte)}
    (progs : core'.progs = (core.progs ++ [ps]).map (·.share names))
    (linked : ps.Linked core'.mem.s.size) (based : ps.Based) (behind : core.mem.s.size ≤ ps.sbase)
    (finish : ps.finish = core'.mem.s.size) (lsBase : core'.mem.lsBase = core.mem.lsBase)
    (lsWords : core'.mem.lsWords = core.mem.lsWords) : core'.Blocks := by
  have lsEnd : core'.mem.lsEnd = core.mem.lsEnd := by unfold Memory.lsEnd; rw [lsBase, lsWords]
  have grown : core.mem.s.size ≤ core'.mem.s.size := by
    have start := based.sbase_le
    unfold ProgsState.finish at finish
    omega
  have added {P : ProgsState → Prop} (old : ∀ ps ∈ core.progs, P ps) (new : P ps)
      (share : ∀ ps, P ps → P (ps.share names)) : ∀ ps ∈ core'.progs, P ps := by
    rw [progs]
    simp only [List.mem_map, List.mem_append, List.mem_singleton]
    rintro _ ⟨ps, mem | rfl, rfl⟩
    · exact share ps (old ps mem)
    · exact share _ new
  refine ⟨⟨?_, ?_, ?_⟩, ?_, ?_, ?_, names, ?_⟩
  · exact added (fun ps mem => (b.progs ps mem).mono grown) linked fun _ l => l.withShared _
  · rw [progs]
    simp
  · rw [progs]
    refine .inr ⟨_, List.mem_map.mpr ⟨ps, List.mem_append_right _ (List.mem_singleton_self _), rfl⟩,
      finish⟩
  · exact added b.based based fun _ b => b.share _
  · obtain ⟨main, rest, eq, h⟩ := b.headed
    refine ⟨main.share names, (rest ++ [ps]).map (·.share names), ?_, h.start, ?_, ?_, ?_, ?_⟩
    · rw [progs, eq]
      rfl
    · rw [lsBase]
      exact h.lsBase
    · rw [lsWords]
      exact h.lsWords
    · rw [lsEnd]
      exact Nat.le_trans h.lsEnd grown
    · rw [lsEnd]
      simp only [List.mem_map, List.mem_append, List.mem_singleton]
      rintro _ ⟨ps, mem | rfl, rfl⟩
      · exact h.rest ps mem
      · exact Nat.le_trans h.lsEnd behind
  · rw [progs, List.pairwise_map, List.pairwise_append]
    refine ⟨b.ordered, List.pairwise_singleton _ _, fun a mem ps' new => ?_⟩
    rw [List.mem_singleton.mp new]
    exact Nat.le_trans (b.progs a mem).inside behind
  · rw [progs]
    simp only [List.mem_map]
    rintro _ ⟨ps, -, rfl⟩
    rfl

/-- An added progs is the last block. -/
lemma blocks_addProgs {F : FloatOps} {loaded : Loaded} {builtins : Builtins} {reserved : Bool}
    (b : core.Blocks) : (core.addProgs F loaded.program builtins reserved).2.Blocks := by
  rcases addProgs_cases F core loaded.program builtins reserved with
    ⟨-, _, e⟩ | ⟨map, fields, fieldBytes, -, -, -, ⟨-, e⟩ | ⟨-, e⟩⟩
  · rw [e]
    exact b
  · rw [e]
    exact b.of_eq rfl rfl rfl rfl
  · rw [e]
    obtain ⟨names, progs⟩ := core.progs_joined F loaded.program builtins map fields fieldBytes
    have shape := (shape_linkExterns (core.joined F loaded.program builtins map fields fieldBytes)).trans
      shape_joined
    have size := congrArg Memory.Shape.sSize shape
    have word : 4 ∣ core.nextStrings := by
      unfold nextStrings alignUp
      omega
    obtain ⟨based, start⟩ := ProgsState.based_new loaded.program (bind loaded.program builtins)
      (stateHandles loaded.program (core.nextGlobals loaded.program) fields) word rfl
    have finish : (core.nextProgs loaded.program builtins fields).finish
        = core.nextEnd loaded.program := by
      show core.nextGlobals loaded.program + 4 * (loaded.program.numGlobals + 5) = _
      unfold nextEnd globalsTailBytes
      omega
    have behind : core.mem.s.size ≤ core.nextStrings := le_alignUp _ (by omega)
    exact b.append progs (ProgsState.Linked.new loaded _ _ (Nat.le_of_eq (finish.trans size.symm)))
      based (Nat.le_trans behind (Nat.le_of_eq start.symm)) (finish.trans size.symm)
      (congrArg Memory.Shape.lsBase shape) (congrArg Memory.Shape.lsWords shape)

/-- Only host operations change where the blocks lie. -/
theorem blocks_invariant (F : FloatOps) : PlainInvariant F Core.Blocks where
  plain b p := b.of_eq p.progs (congrArg Memory.Shape.sSize p.shape)
    (congrArg Memory.Shape.lsBase p.shape) (congrArg Memory.Shape.lsWords p.shape)
  host {core builtins} op b _ := by
    have hosted : Hosted F op core (core.host F builtins op) := core.hosted op
    rcases hosted.progs with ⟨progs, size⟩ | ⟨loaded, reserved, rfl⟩
    · exact b.of_eq progs size hosted.stack.1 hosted.stack.2
    · exact blocks_addProgs b
  built e := blocks_buildCore e

end Core

/-- The blocks of region S lie one behind the other in every reachable system. -/
theorem Sys.Reachable.blocks {F : FloatOps} {s : Sys} (r : s.Reachable F) : s.vm.core.Blocks :=
  (Core.blocks_invariant F).reachable r

end Qcvm

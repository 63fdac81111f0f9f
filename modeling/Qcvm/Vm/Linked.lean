import Qcvm.Progs.Sound
import Qcvm.Vm.Context
import Qcvm.Vm.Layout

/-!
# Loaded progs in memory

What the loader checked, seen from the VM: with the globals of a progs in region S and its operands
relocated there, every operand that names a global names three words of region S, every jump stays in
the code, and the entries, locals and parameter copies of functions are in range. Building a VM
establishes this, adding progs keeps it, and nothing else changes progs.
-/

namespace Qcvm

open Lib

/-- A progs of a loaded program, bound to memory whose region S has `size` bytes. -/
structure ProgsState.Linked (ps : ProgsState) (size : Nat) : Prop where
  loaded : ∃ l : Loaded, l.program = ps.program
  code : ps.code = padCode (relocate ps.program ps.gbase)
  bound : bindFunctions ps.program ps.gbase [] ps.program.functions = (ps.funcs, ps.copies)
  inside : ps.gbase + 4 * (ps.numGlobals + 5) ≤ size

/-- Every progs of a core is linked; one that was added ends region S. -/
structure Core.Linked (core : Core) : Prop where
  progs : ∀ ps ∈ core.progs, ps.Linked core.mem.s.size
  main : core.progs ≠ []
  added : core.progs.length = 1 ∨
    ∃ ps ∈ core.progs, ps.gbase + 4 * (ps.numGlobals + 5) = core.mem.s.size

/-- A byte offset of a global, or of the words behind the globals, of a progs at `gbase`. -/
def GlobalAt (gbase limit o : Nat) : Prop := ∃ w < limit, o = gbase + 4 * w

/-- What entering a function uses. -/
structure QcFunc.Placed (f : QcFunc) (count gbase limit : Nat) : Prop where
  entry : f.entry < count
  locals : ∃ w, f.localsAddr = gbase + 4 * w ∧ w + f.localsWords ≤ limit

/-! ## Relocation -/

/-- Relocating an operand in range does not wrap. -/
lemma relocated {gbase limit w : Nat} (lt : w < limit) (fits : gbase + 4 * limit ≤ u32Max) :
    wrappingAdd (4 * w) gbase = gbase + 4 * w := by
  rw [wrappingAdd_of_le (by omega), Nat.add_comm]

/-- A statement of a program, relocated. -/
structure Stmt.Linked (st : Stmt) (gbase limit count : Nat) : Prop where
  names : ∀ s, st.op.operand s = .global → GlobalAt gbase limit (st.operand s)
  index : ∀ s, st.op.operand s = .globalIndex → st.operand s < limit
  jump : ∀ s, st.op.operand s = .jump → st.operand s ≤ count

/-- A placed statement is linked when it is relocated. -/
lemma linked_relocateStmt {st : Stmt} {gbase limit count : Nat} (p : st.Placed limit count)
    (fits : gbase + 4 * limit ≤ u32Max) : (relocateStmt gbase st).Linked gbase limit count := by
  have operand (s : Slot) : (relocateStmt gbase st).operand s =
      if Operand.isRelocated (st.op.operand s) then wrappingAdd (st.operand s) gbase
      else st.operand s := by
    cases s <;> rfl
  refine ⟨fun s kind => ?_, fun s kind => ?_, fun s kind => ?_⟩
  · change st.op.operand s = _ at kind
    have placed := p s
    rw [kind] at placed
    obtain ⟨w, lt, e, -⟩ := placed
    rw [operand, kind, if_pos (show Operand.isRelocated .global = true from rfl), e,
      relocated lt fits]
    exact ⟨w, lt, rfl⟩
  · change st.op.operand s = _ at kind
    have placed := p s
    rw [kind] at placed
    rw [operand, kind]
    exact placed
  · change st.op.operand s = _ at kind
    have placed := p s
    rw [kind] at placed
    rw [operand, kind]
    exact placed

/-- The sentinel is linked anywhere. -/
lemma linked_sentinel (gbase limit count : Nat) : Stmt.sentinel.Linked gbase limit count := by
  refine ⟨fun s kind => ?_, fun s kind => ?_, fun s kind => ?_⟩ <;> cases s <;> cases kind

section Code

variable {program : Program} {gbase : Nat}

/-- The statements are padded to the window. -/
lemma size_code (p : program.Sound) :
    (padCode (relocate program gbase)).size = max (program.fileStatements + 1) codeWindow := by
  have size : (relocate program gbase).size = program.fileStatements + 1 := p.size
  unfold padCode
  split
  next => omega
  next =>
    rw [Arr.size_resize]
    omega

/-- The statements are relocated, and padded with sentinels. -/
lemma get_code (p : program.Sound) {i : Nat}
    (lt : i < (padCode (relocate program gbase)).size) :
    (padCode (relocate program gbase)).get i
        = if i ≤ program.fileStatements then relocateStmt gbase (program.statements.get i)
          else .sentinel := by
  have size : (relocate program gbase).size = program.fileStatements + 1 := p.size
  have stored (h : i ≤ program.fileStatements) : (relocate program gbase).get i
      = relocateStmt gbase (program.statements.get i) :=
    Arr.get_map _ (by rw [p.size]; omega)
  rw [size_code p] at lt
  unfold padCode
  split
  next => rw [if_pos (by omega), stored (by omega)]
  next =>
    by_cases inside : i ≤ program.fileStatements
    · rw [Arr.get_resize_of_lt _ (by omega) (by omega), if_pos inside, stored inside]
    · rw [if_neg inside, Arr.resize, Arr.get_tabulate _ (by omega), if_neg (by omega)]

end Code

/-! ## Functions -/

/-- Bound functions of a sound program are placed. -/
lemma placed_bindFunctions {program : Program} {gbase limit : Nat} {functions : List Function}
    {copies all : List ParamCopy} {funcs : List (Option QcFunc)}
    (fits : gbase + 4 * limit ≤ u32Max)
    (sound : ∀ f ∈ functions, f.Placed program.fileStatements limit)
    (params : ∀ c ∈ program.paramCopies, c.Placed limit)
    (placed : ∀ c ∈ copies, GlobalAt gbase limit c.src ∧ GlobalAt gbase limit c.dst)
    (e : bindFunctions program gbase copies functions = (funcs, all)) :
    (∀ f, some f ∈ funcs → f.Placed program.fileStatements gbase limit) ∧
      ∀ c ∈ all, GlobalAt gbase limit c.src ∧ GlobalAt gbase limit c.dst := by
  induction functions generalizing copies funcs all with
  | nil =>
    cases e
    exact ⟨fun _ h => absurd h List.not_mem_nil, placed⟩
  | cons f rest ih =>
    have rested := fun g mem => sound g (List.mem_cons_of_mem f mem)
    have skipped {funcs' : List (Option QcFunc)} {all' : List ParamCopy}
        (e : (none :: (bindFunctions program gbase copies rest).1,
          (bindFunctions program gbase copies rest).2) = (funcs', all')) :
        (∀ f, some f ∈ funcs' → f.Placed program.fileStatements gbase limit) ∧
          ∀ c ∈ all', GlobalAt gbase limit c.src ∧ GlobalAt gbase limit c.dst := by
      cases e
      obtain ⟨found, copied⟩ := ih rested placed rfl
      refine ⟨fun g mem => ?_, copied⟩
      rcases List.mem_cons.mp mem with none | mem
      · cases none
      · exact found g mem
    unfold bindFunctions at e
    split at e
    next entry kind =>
      split at e
      next => exact skipped e
      next =>
        have here := sound f List.mem_cons_self entry kind
        have moved : ∀ c ∈ copies ++ (program.copies f).map fun c =>
            ⟨wrappingAdd c.src gbase, wrappingAdd c.dst gbase⟩,
            GlobalAt gbase limit c.src ∧ GlobalAt gbase limit c.dst := by
          intro c mem
          rcases List.mem_append.mp mem with mem | mem
          · exact placed c mem
          · obtain ⟨param, chosen, rfl⟩ := List.mem_map.mp mem
            have known : param ∈ program.paramCopies := by
              unfold Program.copies at chosen
              split at chosen
              next => exact List.mem_of_mem_take (List.mem_of_mem_drop chosen)
              next => exact absurd chosen List.not_mem_nil
            obtain ⟨⟨w, lt, src⟩, ⟨v, lt', dst⟩⟩ := params param known
            dsimp only
            rw [src, dst, relocated lt fits, relocated lt' fits]
            exact ⟨⟨w, lt, rfl⟩, ⟨v, lt', rfl⟩⟩
        cases e
        obtain ⟨found, copied⟩ := ih rested moved rfl
        refine ⟨fun g mem => ?_, copied⟩
        rcases List.mem_cons.mp mem with same | mem
        · split at same
          next => cases same
          next =>
            cases same
            refine ⟨here.1, f.parmStart, ?_, here.2⟩
            have small : f.parmStart * 4 % (u32Max + 1) = 4 * f.parmStart := by
              rw [Nat.mod_eq_of_lt (by omega), Nat.mul_comm]
            dsimp only
            rw [small, wrappingAdd_of_le (by omega)]
        · exact found g mem
    next => exact skipped e

/-! ## What the interpreter finds -/

namespace ProgsState.Linked

variable {ps : ProgsState} {size : Nat}

/-- The program of a linked progs is sound. -/
lemma sound (l : ps.Linked size) : ps.program.Sound := by
  obtain ⟨loaded, same⟩ := l.loaded
  rw [← same]
  exact loaded.sound

/-- The globals of a linked progs are those of its program. -/
lemma numGlobals (l : ps.Linked size) : ps.numGlobals = ps.program.globals.size :=
  Nat.min_eq_left l.sound.globals_le

/-- The globals and the words behind them have addresses. -/
lemma fits (l : ps.Linked size) (le : size ≤ u32Max) :
    ps.gbase + 4 * (ps.program.globals.size + globalsTail) ≤ u32Max := by
  have inside := l.inside
  rw [l.numGlobals] at inside
  unfold globalsTail
  omega

/-- The statements of a linked progs are padded to the window. -/
lemma size_eq (l : ps.Linked size) :
    ps.code.size = max (ps.program.fileStatements + 1) codeWindow := by
  rw [l.code, size_code l.sound]

/-- The statements of a linked progs can be numbered by words. -/
lemma size_le (l : ps.Linked size) : ps.code.size ≤ u32Max + 1 := by
  have := l.sound.count_le
  rw [l.size_eq]
  unfold codeWindow u32Max at *
  omega

/-- Every statement is linked. -/
lemma stmt (l : ps.Linked size) (le : size ≤ u32Max) {i : Nat} (lt : i < ps.code.size) :
    (ps.code.get i).Linked ps.gbase (ps.numGlobals + globalsTail) ps.program.fileStatements := by
  rw [l.code] at lt ⊢
  rw [get_code l.sound lt, l.numGlobals]
  split
  next =>
    exact linked_relocateStmt (l.sound.placed i (by rw [l.sound.size]; omega)) (l.fits le)
  next => exact linked_sentinel _ _ _

/-- The last statement is the sentinel. -/
lemma last (l : ps.Linked size) : (ps.code.get (ps.code.size - 1)).op = .jumpOutOfRange := by
  have eq := l.size_eq
  have get := @get_code _ ps.gbase l.sound (ps.code.size - 1)
  rw [← l.code] at get
  rw [get (by unfold codeWindow at eq; omega)]
  split
  next =>
    rw [show ps.code.size - 1 = ps.program.fileStatements by omega, l.sound.sentinel]
    rfl
  next => rfl

/-- A statement that is not the sentinel is followed by another. -/
lemma succ_lt (l : ps.Linked size) {i : Nat} (lt : i < ps.code.size)
    (real : (ps.code.get i).op ≠ .jumpOutOfRange) : i + 1 < ps.code.size := by
  by_contra ge
  refine real ?_
  rw [show i = ps.code.size - 1 by omega]
  exact l.last

/-- The functions of a linked progs are placed. -/
lemma funcs (l : ps.Linked size) (le : size ≤ u32Max) {f : QcFunc} (mem : some f ∈ ps.funcs) :
    f.Placed ps.program.fileStatements ps.gbase (ps.numGlobals + globalsTail) := by
  rw [l.numGlobals]
  exact (placed_bindFunctions (l.fits le) l.sound.functions l.sound.copies
    (fun _ h => absurd h List.not_mem_nil) l.bound).1 f mem

/-- The parameter copies of a linked progs are between globals. -/
lemma copies (l : ps.Linked size) (le : size ≤ u32Max) {c : ParamCopy} (mem : c ∈ ps.copies) :
    GlobalAt ps.gbase (ps.numGlobals + globalsTail) c.src ∧
      GlobalAt ps.gbase (ps.numGlobals + globalsTail) c.dst := by
  rw [l.numGlobals]
  exact (placed_bindFunctions (l.fits le) l.sound.functions l.sound.copies
    (fun _ h => absurd h List.not_mem_nil) l.bound).2 c mem

/-- A function that is found is in range. -/
lemma lookup {core : Core} (l : core.Linked) (le : core.mem.s.size ≤ u32Max) {prnum index : Nat}
    {ps : ProgsState} {f : QcFunc} (found : core.lookupFunc prnum index = some (ps, f)) :
    core.progs[prnum]? = some ps ∧ ps.Linked core.mem.s.size ∧
      f.Placed ps.program.fileStatements ps.gbase (ps.numGlobals + globalsTail) := by
  unfold Core.lookupFunc at found
  obtain ⟨ps', at', found⟩ := Option.bind_eq_some_iff.mp found
  obtain ⟨f', joined, found⟩ := Option.bind_eq_some_iff.mp found
  cases found
  have linked := l.progs ps (List.mem_of_getElem? at')
  obtain ⟨o, here, rfl⟩ : ∃ o, ps.funcs[index]? = some o ∧ o = some f := by
    cases e : ps.funcs[index]? with
    | none =>
      rw [e] at joined
      cases joined
    | some o =>
      rw [e] at joined
      exact ⟨o, rfl, joined⟩
  exact ⟨at', linked, linked.funcs le (List.mem_of_getElem? here)⟩

/-- A linked progs is so in a larger region. -/
lemma mono {size' : Nat} (l : ps.Linked size) (le : size ≤ size') : ps.Linked size' :=
  ⟨l.loaded, l.code, l.bound, Nat.le_trans l.inside le⟩

/-- Shared globals do not matter to the links. -/
lemma withShared (l : ps.Linked size) (shared : List (Option SharedGlobal)) :
    { ps with shared := shared }.Linked size :=
  ⟨l.loaded, l.code, l.bound, l.inside⟩

/-- A program of the loader, bound to memory that has room for its globals. -/
lemma new (l : Loaded) {gbase : Nat} (callees : List Callee) (state : StateHandles)
    (inside : gbase + 4 * (l.program.numGlobals + 5) ≤ size) :
    (ProgsState.new l.program gbase callees state).Linked size :=
  ⟨⟨l, rfl⟩, rfl, rfl, inside⟩

end ProgsState.Linked

end Qcvm

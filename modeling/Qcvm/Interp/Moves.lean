import Qcvm.Interp.FastPath
import Qcvm.Interp.Run
import Qcvm.Progs.Assemble

/-!
# What the interpreter does to a core

Whatever an operation of the loop does, it writes bytes within the regions, and in region E only to
blocks that are not protected; the loaded progs, the configuration, the threads and what host calls
save stay as they are. `Core.Moved` says so once, for every operation (`handle_moved`), so every
statement, and every run, obeys it.
-/

namespace Qcvm

open Lib

namespace Memory

/-- Only bytes of region S differ. -/
def OnlyS (m m' : Memory) : Prop := ∃ s : Arr Byte, s.size = m.s.size ∧ m' = { m with s := s }

variable {m m' m'' : Memory}

/-- A memory differs from itself nowhere. -/
lemma OnlyS.refl (m : Memory) : OnlyS m m := ⟨m.s, rfl, rfl⟩

/-- Changes of region S in sequence are changes of region S. -/
lemma OnlyS.trans (a : OnlyS m m') (b : OnlyS m' m'') : OnlyS m m'' := by
  obtain ⟨s, size, rfl⟩ := a
  obtain ⟨s', size', rfl⟩ := b
  exact ⟨s', size'.trans size, rfl⟩

/-- Replacing region S by one of its size changes only region S. -/
lemma OnlyS.withS {s : Arr Byte} (size : s.size = m.s.size) : OnlyS m { m with s := s } :=
  ⟨s, size, rfl⟩

/-- What every step of a fold does, the fold does. -/
lemma OnlyS.foldl {α : Type} {f : Memory → α → Memory} (step : ∀ m a, OnlyS m (f m a)) (l : List α)
    (m : Memory) : OnlyS m (l.foldl f m) := by
  induction l generalizing m with
  | nil => exact .refl m
  | cons a l ih => exact (step m a).trans (ih _)

/-- A word written to the globals changes only region S. -/
lemma onlyS_setG (m : Memory) (off : Nat) (v : Word) : OnlyS m (m.setG off v) := .withS rfl

/-- Words written to the globals change only region S. -/
lemma onlyS_setGs (m : Memory) (off : Nat) (vs : List Word) : OnlyS m (m.setGs off vs) :=
  .foldl (fun m (v : Word × Nat) => onlyS_setG m (off + 4 * v.2) v.1) _ m

/-- A copy of words changes only region S. -/
lemma onlyS_copyG (m : Memory) (src dst words : Nat) : OnlyS m (m.copyG src dst words) :=
  .foldl (fun m i => onlyS_setG m (dst + 4 * i) (m.g (src + 4 * i))) _ m

/-- Copies of shared globals change only region S. -/
lemma onlyS_copyPairs (m : Memory) (ranges : List (Nat × Nat × Nat)) :
    OnlyS m (copyPairs m ranges) :=
  .foldl (fun m (r : Nat × Nat × Nat) => onlyS_copyG m r.1 r.2.1 r.2.2) _ m

/-- Copies of parameters to locals change only region S. -/
lemma onlyS_copyParams (m : Memory) (copies : List ParamCopy) :
    OnlyS m (Core.copyParams m copies) :=
  .foldl (fun m (c : ParamCopy) => onlyS_setG m c.dst (m.g c.src)) _ m

/-- A move of bytes changes only region S. -/
lemma onlyS_moveS {src dst len : Nat} (e : m.moveS src dst len = some m') : OnlyS m m' := by
  unfold moveS at e
  split at e
  next => cases e
  next =>
    cases e
    exact .withS rfl

/-- The shape, the slots and the blocks of the protected entities are kept. -/
structure Kept (m m' : Memory) : Prop where
  shape : m'.shape = m.shape
  slots : m'.slots = m.slots
  guarded : ∀ i, m.guarded (i / m.stride) = true → m'.e.get i = m.e.get i

/-- A memory keeps its own protected blocks. -/
lemma Kept.refl (m : Memory) : Kept m m := ⟨rfl, rfl, fun _ _ => rfl⟩

/-- Protection depends on the slots alone. -/
lemma guarded_congr (slots : m'.slots = m.slots) (e : Nat) : m'.guarded e = m.guarded e := by
  rw [Memory.guarded, Memory.guarded, slots]

/-- Changes that keep the protected blocks do so in sequence. -/
lemma Kept.trans (a : Kept m m') (b : Kept m' m'') : Kept m m'' := by
  refine ⟨b.shape.trans a.shape, b.slots.trans a.slots, fun i h => ?_⟩
  have stride := stride_of_shape a.shape
  have h' : m'.guarded (i / m'.stride) = true := by
    rw [stride, guarded_congr a.slots]
    exact h
  exact (b.guarded i h').trans (a.guarded i h)

/-- A change of region S keeps the protected blocks. -/
lemma OnlyS.kept (a : OnlyS m m') : Kept m m' := by
  obtain ⟨s, size, rfl⟩ := a
  refine ⟨?_, rfl, fun _ _ => rfl⟩
  simp only [shape, size]

/-- What every step of a fold keeps, the fold keeps. -/
lemma Kept.foldl {α : Type} {f : Memory → α → Memory} (step : ∀ m a, Kept m (f m a)) (l : List α)
    (m : Memory) : Kept m (l.foldl f m) := by
  induction l generalizing m with
  | nil => exact .refl m
  | cons a l ih => exact (step m a).trans (ih _)

/-! ## Writes to an entity -/

/-- The bytes of an access that stays within a block belong to the block's entity. -/
lemma div_of_block {stride off n i : Nat} (within : off % stride + n ≤ stride)
    (lo : off ≤ i) (hi : i < off + n) : i / stride = off / stride := by
  have division := Nat.div_add_mod off stride
  rw [Nat.mul_comm] at division
  refine Nat.div_eq_of_lt_le ?_ ?_
  · omega
  · rw [Nat.succ_mul]
    omega

/-- A block of bytes written within an unprotected entity. -/
lemma kept_writeE {off : Nat} (bytes : List Byte) (within : off % m.stride + bytes.length ≤ m.stride)
    (free : m.guarded (off / m.stride) = false) : Kept m { m with e := m.e.write off bytes } := by
  refine ⟨rfl, rfl, fun i h => ?_⟩
  refine Arr.get_write_of_outside ?_
  by_contra inside
  rw [not_or] at inside
  have same := div_of_block within (by omega : off ≤ i) (by omega)
  rw [same, free] at h
  cases h

/-- A range found in region E lies within the block of one entity. -/
lemma locate_e {p : Word} {n off e : Nat} (l : m.Regions) (h : m.locate p n = some (.e off e)) :
    e = off / m.stride ∧ off % m.stride + n ≤ m.stride := by
  have fields := l.fields_le
  unfold locate at h
  split at h
  next => cases h
  next =>
    rcases Option.or_eq_some_iff.mp h with found | ⟨-, found⟩
    · unfold locateEntity at found
      split at found
      next => cases found
      next =>
        dsimp only at found
        split at found
        next ok =>
          cases found
          exact ⟨rfl, by omega⟩
        next => cases found
    · unfold locateHeap at found
      split at found <;> cases found

/-- A checked write. -/
lemma kept_write (l : m.Regions) {p : Word} {bytes : List Byte} (h : m.write p bytes = .ok m') :
    Kept m m' := by
  obtain ⟨loc, checked, -, rfl⟩ := write_eq_ok.mp h
  obtain ⟨-, found, free⟩ := checkWrite_eq_ok.mp checked
  cases loc with
  | s o => exact (OnlyS.withS (Arr.size_write _ _ _)).kept
  | h o => exact ⟨rfl, rfl, fun _ _ => rfl⟩
  | e off e =>
    obtain ⟨rfl, within⟩ := locate_e l found
    exact kept_writeE bytes within (free off _ rfl)

/-- A store through a pointer keeps the protected blocks, or it is refused. -/
lemma kept_poke (l : m.Regions) (p v : Word) : Kept m (m.poke p v) := by
  unfold poke
  split
  next written => exact kept_write l written
  next => exact .refl m

/-- One component of a vector store. -/
lemma kept_pokeSet (l : m.Regions) (p : Word) (oc : Nat) (v : Word) : Kept m (m.pokeSet p oc v) :=
  (kept_poke l p v).trans (onlyS_setG _ _ _).kept

/-- The vector stores, component by component. -/
lemma kept_foldl_pokeSet (l : m.Regions) (p : Word) (oc : Nat) (value : Memory → Nat → Word)
    (offsets : List Nat) : Kept m (offsets.foldl (fun m k =>
      m.pokeSet (p + BitVec.ofNat 32 k) (oc + k) (value m k)) m) := by
  induction offsets generalizing m with
  | nil => exact .refl m
  | cons k offsets ih =>
    have first := kept_pokeSet l (p + BitVec.ofNat 32 k) (oc + k) (value m k)
    exact first.trans (ih (l.of_shape first.shape))

/-- A compound store through a pointer keeps the protected blocks. -/
lemma kept_pointerStore (l : m.Regions) (F : FloatOps) (op : PointerStore) (p : Word) (oa oc : Nat) :
    Kept m (m.pointerStore F op p oa oc) := by
  cases op with
  | compound op => exact kept_pokeSet l _ _ _
  | mulVF =>
    exact kept_foldl_pokeSet l p oc
      (fun m' k => F.mul (m'.peek (p + BitVec.ofNat 32 k)) (m.g oa)) [0, 4, 8]
  | addV =>
    exact kept_foldl_pokeSet l p oc
      (fun m k => F.add (m.peek (p + BitVec.ofNat 32 k)) (m.g (oa + k))) [0, 4, 8]
  | subV =>
    exact kept_foldl_pokeSet l p oc
      (fun m k => F.sub (m.peek (p + BitVec.ofNat 32 k)) (m.g (oa + k))) [0, 4, 8]
  | bitSet => exact kept_poke l _ _
  | bitClr => exact kept_poke l _ _

/-! ## The fast paths -/

/-- A write to an entity that is not protected keeps the protected blocks. -/
lemma kept_writeE_of_target {p : Word} {off : Nat} (bytes : List Byte) (l : m.Regions)
    (target : m.entTarget p bytes.length = some (off, false)) :
    Kept m { m with e := m.e.write off bytes } := by
  have fields := l.fields_le
  unfold entTarget at target
  split at target
  next => cases target
  next =>
    dsimp only at target
    split at target
    next => cases target
    next slot found =>
      split at target
      next within =>
        simp only [Option.some.injEq, Prod.mk.injEq] at target
        obtain ⟨rfl, free⟩ := target
        exact kept_writeE bytes (by omega) ((guarded_eq found).trans free)
      next => cases target

/-- An inline store through a pointer keeps the protected blocks. -/
lemma kept_ptrWriteView (l : m.Regions) {V : View} {p : Word} {bytes : List Byte}
    (h : m.ptrWriteView V p bytes = some m') : Kept m m' := by
  unfold ptrWriteView at h
  split at h
  next =>
    split at h
    next => cases h
    next =>
      cases h
      exact (OnlyS.withS (Arr.size_write _ _ _)).kept
  next =>
    split at h
    next off target =>
      split at h
      next =>
        cases h
        exact kept_writeE_of_target bytes l target
      next => cases h
    next => cases h

/-- An inline compound store keeps the protected blocks. -/
lemma kept_compoundStoreView (l : m.Regions) {F : FloatOps} {V : View} {op : Compound} {p a v : Word}
    (h : m.compoundStoreView F V op p a = some (v, m')) : Kept m m' := by
  unfold compoundStoreView at h
  split at h
  next =>
    split at h
    next => cases h
    next =>
      cases h
      exact (OnlyS.withS (Arr.size_write _ _ _)).kept
  next =>
    split at h
    next off target =>
      split at h
      next =>
        cases h
        exact kept_writeE_of_target (leBytes _) l target
      next => cases h
    next => cases h

/-- An inline store to a field keeps the protected blocks. -/
lemma kept_storeFieldView (l : m.Regions) {e f : Word} {vs : List Word}
    (h : m.storeFieldView e f vs = some m') : Kept m m' := by
  have fields := l.fields_le
  unfold storeFieldView at h
  dsimp only at h
  split at h
  next => cases h
  next valid =>
    split at h
    next =>
      cases h
      rw [not_or] at valid
      obtain ⟨narrow, free⟩ := valid
      cases found : m.slots[e.toNat]? with
      | none => simp [found] at free
      | some slot =>
        rcases Nat.eq_zero_or_pos (wordsBytes vs).length with none | some
        · refine ⟨rfl, rfl, fun i _ => Arr.get_write_of_outside (by omega)⟩
        · have block : (e.toNat * m.stride + 4 * f.toNat) / m.stride = e.toNat := by
            rw [Nat.mul_comm, Nat.mul_add_div m.stride_pos, Nat.div_eq_of_lt (by omega), Nat.add_zero]
          have within : (e.toNat * m.stride + 4 * f.toNat) % m.stride = 4 * f.toNat := by
            rw [Nat.mul_comm, Nat.mul_add_mod, Nat.mod_eq_of_lt (by omega)]
          refine kept_writeE _ (by omega) ?_
          rw [block, guarded_eq found]
          simpa [found] using free
    next => cases h

/-- The words of `store_field`, within a block. -/
lemma kept_foldl_setEntWord (l : m.Regions) {e f words off : Nat}
    (located : m.fieldOffset e f words = some off) (free : m.guarded e = false)
    (vs : List (Word × Nat)) (bound : ∀ v ∈ vs, v.2 < words) :
    Kept m (vs.foldl (fun m v => m.setEntWord (off + 4 * v.2) v.1) m) := by
  have fields := l.fields_le
  have place : off = e * m.stride + 4 * f ∧ 4 * (f + words) ≤ m.fieldBytes := by
    unfold fieldOffset at located
    split at located
    next => cases located
    next =>
      split at located
      next => cases located
      next fits =>
        cases located
        exact ⟨rfl, Nat.le_of_not_lt fits⟩
  obtain ⟨rfl, fits⟩ := place
  clear located
  induction vs generalizing m with
  | nil => exact .refl m
  | cons v vs ih =>
    have lt := bound v (by simp)
    have block : (e * m.stride + 4 * f + 4 * v.2) / m.stride = e := by
      rw [Nat.add_assoc, Nat.mul_comm, Nat.mul_add_div m.stride_pos, Nat.div_eq_of_lt (by omega),
        Nat.add_zero]
    have within : (e * m.stride + 4 * f + 4 * v.2) % m.stride = 4 * f + 4 * v.2 := by
      rw [Nat.add_assoc, Nat.mul_comm, Nat.mul_add_mod, Nat.mod_eq_of_lt (by omega)]
    have first : Kept m (m.setEntWord (e * m.stride + 4 * f + 4 * v.2) v.1) :=
      kept_writeE (leBytes v.1) (by rw [within, length_leBytes]; omega) (by rw [block, free])
    exact first.trans (ih (l.of_shape first.shape) free (fun w h => bound w (by simp [h])) fields fits)

end Memory

namespace Core

/-- What the interpreter leaves alone, besides the memory. -/
structure Fixed where
  progs : List ProgsState
  fields : FieldTable
  builtin : FuncRef
  nesting : Nat
  config : VmConfig
  trace : Bool
  removeClears : List Nat
  spawnDefaults : List SpawnFill
  abortRet : Option AbortRet
  shared : List (List Byte)
  entryDepth : Nat
  threads : List Thread

/-- The part of a core that the interpreter leaves alone. -/
def fixed (core : Core) : Fixed where
  progs := core.progs
  fields := core.fields
  builtin := core.builtin
  nesting := core.nesting
  config := core.config
  trace := core.trace
  removeClears := core.removeClears
  spawnDefaults := core.spawnDefaults
  abortRet := core.abortRet
  shared := core.shared
  entryDepth := core.entryDepth
  threads := core.threads

/-- What an operation of the interpreter may do. -/
structure Moved (core core' : Core) : Prop where
  mem : core.mem.Kept core'.mem
  fixed : core'.fixed = core.fixed

variable {core core' core'' : Core}

/-- A core that does nothing has moved. -/
lemma Moved.refl (core : Core) : Moved core core := ⟨.refl _, rfl⟩

/-- Moves in sequence are a move. -/
lemma Moved.trans (a : Moved core core') (b : Moved core' core'') : Moved core core'' :=
  ⟨a.mem.trans b.mem, b.fixed.trans a.fixed⟩

/-- Replacing the memory by one that keeps the protected blocks is a move. -/
lemma Moved.withMem {m : Memory} (kept : core.mem.Kept m) : Moved core { core with mem := m } :=
  ⟨kept, rfl⟩

/-- Registers, the frame stack, strings and warnings are free to change. -/
lemma Moved.of_eq (mem : core'.mem = core.mem) (fixed : core'.fixed = core.fixed) :
    Moved core core' := ⟨mem ▸ .refl _, fixed⟩

/-- A move keeps the order of the regions. -/
lemma Moved.regions (a : Moved core core') (l : core.mem.Regions) : core'.mem.Regions :=
  l.of_shape a.mem.shape

/-- Storing the statement number is a move. -/
lemma moved_markPc (core : Core) (pc : Nat) : Moved core (core.markPc pc) := .of_eq rfl rfl

/-- Drawing a random number is a move. -/
lemma moved_rng (core : Core) (rng : Rng) : Moved core { core with rng := rng } := .of_eq rfl rfl

/-- A warning is a move. -/
lemma moved_warn (core : Core) (kind : WarningKind) : Moved core (core.warn kind) := by
  unfold warn
  dsimp only
  split <;> exact .of_eq rfl rfl

/-- The warning of a bad field access is a move. -/
lemma moved_badFieldAccess (core : Core) (e f : Word) : Moved core (core.badFieldAccess e f) := by
  unfold badFieldAccess
  split <;> exact moved_warn _ _

/-- A store to a field is a move. -/
lemma moved_storeField (core : Core) (l : core.mem.Regions) (e f : Word) (vs : List Word) :
    Moved core (core.storeField e f vs) := by
  unfold storeField
  split
  next => exact moved_warn _ _
  next =>
    split
    next => exact moved_warn _ _
    next located =>
      split
      next => exact moved_warn _ _
      next free =>
        refine .withMem (Memory.kept_foldl_setEntWord l located (by simpa using free) _ ?_)
        intro v mem
        have := List.snd_lt_of_mem_zipIdx mem
        omega

/-- Reading a string, with a warning for a bad one, is a move. -/
lemma moved_strOrWarn (core : Core) (r : Word) : Moved core (core.strOrWarn r).2 := by
  unfold strOrWarn
  split
  next => exact moved_warn _ _
  next => exact .refl core

/-- A test of strings for equality is a move. -/
lemma moved_stringsEqual (core : Core) (a b : Word) : Moved core (core.stringsEqual a b).2 := by
  unfold stringsEqual
  split
  next => exact .refl core
  next =>
    split
    next => exact moved_strOrWarn _ _
    next => exact (moved_strOrWarn _ _).trans (moved_strOrWarn _ _)

/-- A comparison of strings is a move. -/
lemma moved_stringCompare (core : Core) (F : FloatOps) (ne : Bool) (a b : Word) :
    Moved core (core.stringCompare F ne a b).2 := by
  have compared := moved_stringsEqual core a b
  unfold stringCompare
  dsimp only
  split
  next => exact compared
  next => split <;> exact compared

/-- The slow path of a store through a pointer is a move. -/
lemma moved_ptrWriteSlow (core : Core) (base offset addr : Word) (bytes : List Byte)
    (err : WriteError) : Moved core (core.ptrWriteSlow base offset addr bytes err).2 := by
  unfold ptrWriteSlow
  split
  next => exact .refl core
  next =>
    split
    next =>
      dsimp only
      split
      next => exact .refl core
      next => split <;> exact .of_eq rfl rfl
    next => split <;> exact .refl core

/-- A store through a pointer is a move. -/
lemma moved_ptrWrite (core : Core) (l : core.mem.Regions) (base offset : Word)
    (bytes : List Byte) :
    Moved core (core.ptrWrite base offset bytes).2 := by
  unfold ptrWrite
  dsimp only
  split
  next written => exact .withMem (Memory.kept_write l written)
  next => exact moved_warn _ _
  next => exact moved_ptrWriteSlow _ _ _ _ _ _

/-- A compound store through a pointer is a move. -/
lemma moved_compoundPointerStore (core : Core) (l : core.mem.Regions) (F : FloatOps)
    (op : PointerStore) (oa ob oc : Nat) : Moved core (core.compoundPointerStore F op oa ob oc).2 := by
  unfold compoundPointerStore
  dsimp only
  split
  next => exact .withMem (Memory.kept_pointerStore l _ _ _ _ _)
  next => exact moved_warn _ _
  next => exact .refl core
  next => exact .refl core

/-! ## Calls and returns -/

/-- Switching to the progs of a callee is a move. -/
lemma moved_switchIn (core : Core) (src dst : Nat) : Moved core (core.switchIn src dst) := by
  unfold switchIn
  split
  next =>
    exact .withMem ((Memory.onlyS_copyG _ _ _ _).trans (Memory.onlyS_copyPairs _ _)).kept
  next => exact .refl core

/-- Switching back to the progs of a caller is a move. -/
lemma moved_switchOut (core : Core) (src dst : Nat) : Moved core (core.switchOut src dst) := by
  unfold switchOut
  split
  next =>
    exact .withMem ((Memory.onlyS_copyG _ _ _ _).trans (Memory.onlyS_copyPairs _ _)).kept
  next => exact .refl core

/-- Restoring the locals of a caller is a move. -/
lemma moved_restoreLocals (core : Core) : Moved core core.restoreLocals := by
  unfold restoreLocals
  dsimp only
  cases moved : core.mem.moveS (core.mem.lsBase + 4 * (core.x.lsTop - core.x.localsWords))
      core.x.localsAddr (4 * core.x.localsWords) with
  | none => exact .of_eq rfl rfl
  | some m => exact ⟨(Memory.onlyS_moveS moved).kept, rfl⟩

/-- Leaving a function is a move. -/
lemma moved_leave (core : Core) : Moved core core.leave := by
  unfold leave
  dsimp only
  split
  next => exact moved_restoreLocals core
  next frame frames _ =>
    have popped : Moved core { core.restoreLocals with
        frames := frames, x := core.restoreLocals.resumeExec frame core.restoreLocals.x.lsTop } :=
      (moved_restoreLocals core).trans (.of_eq rfl rfl)
    split
    next => exact popped.trans (moved_switchOut _ _ _)
    next => exact popped

/-- Saving the locals of a function keeps the protected blocks. -/
lemma moved_saveLocals {f : QcFunc} {lsTop newTop : Nat} {m : Memory}
    (h : core.saveLocals f = some (lsTop, newTop, m)) : core.mem.Kept m := by
  unfold saveLocals at h
  obtain ⟨_, -, h⟩ := Option.bind_eq_some_iff.mp h
  obtain ⟨_, -, h⟩ := Option.bind_eq_some_iff.mp h
  dsimp only at h
  split at h
  next => cases h
  next =>
    obtain ⟨m', moved, h⟩ := Option.bind_eq_some_iff.mp h
    cases h
    exact (Memory.onlyS_moveS moved).kept

/-- Entering a function is a move. -/
lemma moved_enter (core : Core) (prnum index resumePc : Nat) :
    Moved core (core.enter prnum index resumePc).2 := by
  unfold enter
  split
  next => exact .refl core
  next =>
    have switched : Moved core (if prnum ≠ core.x.prnum ∧ core.progs.length > 1 then
        core.switchIn core.x.prnum prnum else core) := by
      split
      next => exact moved_switchIn _ _ _
      next => exact .refl core
    dsimp only
    split
    next => exact switched
    next =>
      split
      next => exact switched
      next saved =>
        refine switched.trans ⟨?_, rfl⟩
        exact (moved_saveLocals saved).trans (Memory.onlyS_copyParams _ _).kept

/-- Replacing region S by one of its size is a move. -/
lemma moved_withS {s : Arr Byte} (size : s.size = core.mem.s.size) : Moved core (core.withS s) :=
  .withMem (Memory.OnlyS.withS size).kept

end Core

namespace View

variable (V : View)

/-- A word set through a view keeps the size of the region. -/
@[simp] lemma size_set (s : Arr Byte) (o : Nat) (v : Word) : (V.set s o v).size = s.size := by
  unfold set
  split <;> rfl

/-- Words set through a view keep the size of the region. -/
@[simp] lemma size_setWords (s : Arr Byte) (o : Nat) (vs : List Word) :
    (V.setWords s o vs).size = s.size := by
  unfold setWords
  induction vs.zipIdx generalizing s with
  | nil => rfl
  | cons v vs ih => exact (ih _).trans (V.size_set _ _ _)

end View

namespace Site

open Qcvm.Core

variable {core : Core} (site : Site)

/-- Storing the loop's `pc` first changes nothing that counts. -/
lemma marked {core' : Core} (pc : Nat) (a : Moved (core.markPc pc) core') : Moved core core' :=
  (moved_markPc core pc).trans a

/-- A store to a field, inline or not, is a move. -/
lemma moved_storeField (l : core.mem.Regions) (words : Nat) :
    Moved core (site.storeField words core) := by
  unfold storeField
  dsimp only
  split
  next taken => exact .withMem (Memory.kept_storeFieldView l taken)
  next => exact marked _ (Core.moved_storeField (core.markPc site.pc) l _ _ _)

/-- A store through a pointer, inline or not, is a move. -/
lemma moved_storeThrough (l : core.mem.Regions) (base offset : Word) (bytes : List Byte) :
    Moved core (site.storeThrough base offset bytes core).2 := by
  unfold storeThrough
  split
  next taken => exact .withMem (Memory.kept_ptrWriteView l taken)
  next => exact marked _ (moved_ptrWrite (core.markPc site.pc) l _ _ _)

/-- A load through a pointer, inline or not, is a move. -/
lemma moved_loadThrough (words : Nat) (base offset : Word) :
    Moved core (site.loadThrough words base offset core).2 := by
  unfold loadThrough
  split
  next => exact moved_withS (View.size_setWords _ _ _ _)
  next =>
    dsimp only
    split
    next =>
      exact marked _ (.withMem (Memory.onlyS_setGs _ _ _).kept)
    next => exact moved_markPc core site.pc

/-- A compound store, inline or not, is a move. -/
lemma moved_compound (l : core.mem.Regions) (F : FloatOps) (op : Compound) :
    Moved core (site.compound F op core).2 := by
  unfold compound
  dsimp only
  split
  next v m taken =>
    have stored := Memory.kept_compoundStoreView l taken
    exact .withMem (stored.trans (Memory.OnlyS.withS (View.size_set _ _ _ _)).kept)
  next => exact marked _ (moved_compoundPointerStore (core.markPc site.pc) l _ _ _ _ _)

/-- Every operation of the interpreter keeps what `Moved` says. -/
theorem handle_moved (l : core.mem.Regions) (F : FloatOps) (f : Micro) :
    Moved core (site.handle F f core).2 := by
  cases f with
  | get | memGet | getGlobal | getRef | look => exact .refl core
  | set s k v => exact moved_withS (View.size_set _ _ _ _)
  | setGlobal off v => exact moved_withS (View.size_set _ _ _ _)
  | memSet s k v => exact .withMem (Memory.onlyS_setG _ _ _).kept
  | warn kind => exact marked _ (moved_warn _ _)
  | badFieldAccess e f => exact marked _ (moved_badFieldAccess _ _ _)
  | storeField words => exact site.moved_storeField l words
  | storeThrough base offset bytes => exact site.moved_storeThrough l base offset bytes
  | ptrWrite base offset bytes =>
    exact marked _ (moved_ptrWrite (core.markPc site.pc) l base offset bytes)
  | loadThrough words base offset => exact site.moved_loadThrough words base offset
  | ptrRead n base offset => exact moved_markPc core site.pc
  | compound op => exact site.moved_compound l F op
  | pointerStore op =>
    exact marked _ (moved_compoundPointerStore (core.markPc site.pc) l F op _ _ _)
  | strOrWarn r => exact marked _ (moved_strOrWarn _ _)
  | stringsEqual a b => exact marked _ (moved_stringsEqual _ _ _)
  | stringCompare ne a b => exact marked _ (moved_stringCompare _ F ne a b)
  | rand15 =>
    exact moved_rng core _
  | setSwitch kind => exact .of_eq rfl rfl
  | setPushed pushed => exact .of_eq rfl rfl
  | setArgc argc => exact .of_eq rfl rfl
  | enter prnum index resumePc =>
    exact marked _ (moved_enter _ _ _ _)
  | leave => exact marked _ (moved_leave _)

/-- So does every program over them. -/
lemma run_moved {α : Type} (l : core.mem.Regions) (F : FloatOps) (p : Arm α) :
    Moved core (p.run (site.handle F) core).2 := by
  have all : p.All (fun _ => True) (fun _ => True) := by
    induction p with
    | pure | fail => trivial
    | call f k ih => exact ⟨trivial, ih⟩
  refine Prog.run_preserves (I := Moved core) all (fun f c _ moved => ?_) (.refl core)
  exact moved.trans (site.handle_moved (moved.regions l) F f)

end Site

/-! ## Statements and runs -/

section Runs

variable {F : FloatOps} {V : View} {trace : Bool} {exitDepth : Nat}

/-- The machine is at or has stopped with a core that has only moved. -/
def MovedFrom (core : Core) : Status At Stop → Prop :=
  Status.Holds (fun a => core.Moved a.core) fun stop => core.Moved stop.core

variable {core core' : Core}

/-- A machine that has moved from a later core has moved from an earlier one. -/
lemma MovedFrom.trans {st : Status At Stop} (a : core.Moved core') (b : MovedFrom core' st) :
    MovedFrom core st := by
  cases st with
  | running s => exact a.trans b
  | done t => exact a.trans b

/-- Reloading the registers is a move. -/
lemma movedFrom_reload (V : View) (core : Core) (budget cachedPr : Nat) (cached : Arr Stmt) :
    MovedFrom core (reload V core budget cachedPr cached) := by
  unfold reload
  dsimp only
  split
  next => exact .refl core
  next ps _ =>
    generalize (if cachedPr ≠ core.x.prnum then ps.code else cached) = code
    split
    next => exact Core.Moved.refl core
    next =>
      split
      next => exact Core.moved_markPc core _
      next => exact Core.Moved.refl core

/-- The start of a run is a move. -/
lemma movedFrom_start (V : View) (core : Core) (budget : Nat) :
    MovedFrom core (start V core budget) := by
  unfold start
  split
  next => exact .refl core
  next => exact movedFrom_reload _ _ _ _ _

/-- Going on after a statement is a move. -/
lemma movedFrom_proceed (a : At) (r : Except ErrorKind After × Core) :
    MovedFrom r.2 (proceed V a r) := by
  unfold proceed
  dsimp only
  split
  next => exact Core.moved_markPc _ _
  next => exact Core.Moved.refl _
  next => exact Core.Moved.refl _
  next => exact movedFrom_reload _ _ _ _ _
  next => exact Core.Moved.refl _
  next => exact Core.moved_markPc _ _

/-- A statement charged for is a move. -/
lemma movedFrom_charge {a : At} (l : a.core.mem.Regions) (st : Stmt) (after : Arm After) :
    MovedFrom a.core (charge F V trace a st after) := by
  unfold charge
  dsimp only
  split
  next => exact Core.Moved.of_eq rfl rfl
  next => exact .trans (Site.run_moved _ l F after) (movedFrom_proceed _ _)

/-- A statement is a move. -/
lemma movedFrom_execute {a : At} (l : a.core.mem.Regions) :
    MovedFrom a.core (execute F V trace exitDepth a) := by
  unfold execute
  split
  next => exact Core.moved_markPc _ _
  next st _ =>
    have moved := (a.site V st).run_moved l F (statement F (a.site V st) exitDepth)
    dsimp only
    split
    next => exact moved.trans (Core.moved_markPc _ _)
    next => exact moved
    next => exact moved.trans (Core.moved_markPc _ _)
    next => exact .trans moved (movedFrom_charge (moved.regions l) _ _)

/-- A statement moves the core. -/
lemma movedFrom_step {a : At} (l : a.core.mem.Regions) :
    MovedFrom a.core (step F V trace exitDepth a) := by
  unfold step
  split
  next => exact Core.Moved.of_eq rfl rfl
  next =>
    have cleared : a.core.Moved (if trace then { a.core with traced := false } else a.core) := by
      split
      next => exact Core.Moved.of_eq rfl rfl
      next => exact .refl _
    exact .trans cleared (movedFrom_execute (cleared.regions l))

/-- A run moves the core. -/
lemma movedFrom_runFor (l : core.mem.Regions) (n : Nat) {st : Status At Stop}
    (h : MovedFrom core st) : MovedFrom core (Status.runFor (step F V trace exitDepth) n st) :=
  Status.runFor_holds (fun _ moved => MovedFrom.trans moved (movedFrom_step (moved.regions l))) n h

/-- A run of the interpreter is a move. -/
lemma moved_run (l : core.mem.Regions) (budget : Nat) :
    core.Moved (run F V trace exitDepth core budget).core := by
  have h : MovedFrom core (Status.runFor (step F V trace exitDepth) (runBound core budget)
      (start V core budget)) := movedFrom_runFor l _ (movedFrom_start V core budget)
  unfold run
  split
  next stop e =>
    rw [e] at h
    exact h
  next a e =>
    rw [e] at h
    exact h

/-- The blocks of the protected entities hold the same bytes, and are still protected. -/
def Core.Spares (core core' : Core) : Prop :=
  ∀ e, core.mem.guarded e = true → core'.mem.guarded e = true ∧
    ∀ i < core.mem.stride,
      core'.mem.e.get (e * core.mem.stride + i) = core.mem.e.get (e * core.mem.stride + i)

/-- A move leaves the protected entities as they are. -/
lemma Core.Moved.spares (a : core.Moved core') : core.Spares core' := by
  intro e guarded
  refine ⟨(Memory.guarded_congr a.mem.slots e).trans guarded, fun i lt => a.mem.guarded _ ?_⟩
  rw [Nat.mul_comm, Nat.mul_add_div core.mem.stride_pos, Nat.div_eq_of_lt lt, Nat.add_zero]
  exact guarded

/-- QuakeC cannot change a protected entity: from any state of the loop, over any code, no number of
statements does, and neither does a run. -/
theorem guarded_immutable (F : FloatOps) (V : View) (trace : Bool) (exitDepth : Nat) (core : Core)
    (l : core.mem.Regions) :
    (∀ (a : At) (n : Nat), a.core = core →
      (Status.runFor (step F V trace exitDepth) n (.running a)).Holds
        (fun b => core.Spares b.core) fun stop => core.Spares stop.core) ∧
    ∀ budget, core.Spares (run F V trace exitDepth core budget).core := by
  refine ⟨?_, fun budget => (moved_run l budget).spares⟩
  rintro a n rfl
  have here : MovedFrom a.core (.running a) := .refl a.core
  have h : MovedFrom a.core (Status.runFor (step F V trace exitDepth) n (.running a)) :=
    movedFrom_runFor l n here
  cases e : Status.runFor (step F V trace exitDepth) n (.running a) with
  | running b =>
    rw [e] at h
    exact Core.Moved.spares h
  | done stop =>
    rw [e] at h
    exact Core.Moved.spares h

/-- A program that stores to the first word of the world. -/
def Asm.protectedStore : Asm where
  statements := [⟨37, 1, 2, 0, none⟩, ⟨0, 0, 0, 0, none⟩]
  globals := [0, 7, 22020096]
  strings := [0]
  entityFields := 1

/-- A core for that program, with a protected world. -/
def protectedCore (core : Core) : Core :=
  { core with mem := core.mem.modifySlot 0 fun slot => { slot with guarded := true } }

/-- The store to a protected world is tried, and warned of, and the world stays as it is. -/
theorem guarded_immutable_store : ∃ core : Core, core.mem.guarded 0 = true ∧
    (run .onZero .whole false 0 core 100).core.warnings.length = 1 ∧
    core.Spares (run .onZero .whole false 0 core 100).core := by
  have test : (parse Asm.protectedStore.build).toOption.any (fun p =>
      (buildCore p ⟨fun _ => none, fun _ => .none, fun _ => false⟩ .menu).toOption.any fun core =>
        (protectedCore core).mem.guarded 0 &&
          (run .onZero .whole false 0 (protectedCore core) 100).core.warnings.length == 1) = true := by
    decide +kernel
  obtain ⟨p, -, test⟩ := (Option.any_eq_true _ _).mp test
  obtain ⟨core, built, test⟩ := (Option.any_eq_true _ _).mp test
  obtain ⟨guarded, warned⟩ := Bool.and_eq_true_iff.mp test
  have built : buildCore p ⟨fun _ => none, fun _ => .none, fun _ => false⟩ .menu = .ok core := by
    cases e : buildCore p ⟨fun _ => none, fun _ => .none, fun _ => false⟩ .menu with
    | error kind =>
      rw [e] at built
      cases built
    | ok core' =>
      rw [e] at built
      cases built
      rfl
  have regions := (Core.layout_buildCore built).mem.toRegions
  exact ⟨protectedCore core, guarded, eq_of_beq warned, (guarded_immutable .onZero .whole false 0 _
    (regions.of_shape (Memory.shape_modifySlot _ _ _))).2 100⟩

end Runs

end Qcvm

import Qcvm.Interp.FastPath
import Qcvm.Interp.Targets
import Qcvm.Vm.Boot
import Qcvm.Vm.Running
import Qcvm.Vm.Switch

/-!
# Operands stay in their block

What a statement writes directly at its operands lies in the words the loader checked the operand to
name, and up to two words behind. Behind the globals of an added progs there is room for that; behind
those of the main progs the local stack starts.
-/

namespace Qcvm

open Lib

namespace Memory

variable {m m' : Memory} {p : Word} {o : Nat}

/-! ## What a store leaves alone -/

/-- A range found in region S lies at its address. -/
lemma locate_eq_s {n off : Nat} (h : m.locate p n = some (.s off)) : off = p.toNat := by
  unfold locate at h
  split at h
  next =>
    cases h
    rfl
  next =>
    rcases Option.or_eq_some_iff.mp h with e | ⟨-, e⟩
    · unfold locateEntity at e
      split at e
      next => cases e
      next =>
        dsimp only at e
        split at e <;> cases e
    · unfold locateHeap at e
      split at e <;> cases e

/-- A write through a pointer leaves the bytes outside alone. -/
lemma s_write {bytes : List Byte} (h : m.write p bytes = .ok m')
    (outside : ¬(p.toNat ≤ o ∧ o < p.toNat + bytes.length)) : m'.s.get o = m.s.get o := by
  obtain ⟨loc, checked, -, rfl⟩ := write_eq_ok.mp h
  obtain ⟨-, found, -⟩ := checkWrite_eq_ok.mp checked
  cases loc with
  | s off =>
    obtain rfl := locate_eq_s found
    exact Arr.get_write_of_outside (show o < p.toNat ∨ p.toNat + bytes.length ≤ o by omega)
  | e off e => rfl
  | h off => rfl

/-- A store through a pointer keeps the bytes of region S outside its word. -/
lemma s_poke (v : Word) (outside : ¬InWords p.toNat 1 o) : (m.poke p v).s.get o = m.s.get o := by
  unfold poke
  split
  next written =>
    refine s_write written ?_
    rw [length_leBytes]
    exact outside
  next => rfl

/-- A word written to the globals keeps the bytes outside it. -/
lemma s_setG {off : Nat} (v : Word) (outside : ¬InWords off 1 o) :
    (m.setG off v).s.get o = m.s.get o := by
  unfold InWords at outside
  exact get_setG_of_outside (by omega)

/-- A store through a pointer and one to an operand keep the bytes outside both. -/
lemma s_pokeSet {oc : Nat} (v : Word) (there : ¬InWords p.toNat 1 o) (here : ¬InWords oc 1 o) :
    (m.pokeSet p oc v).s.get o = m.s.get o :=
  (s_setG v here).trans (s_poke v there)

/-- The components of a vector store. -/
lemma s_foldl_pokeSet (oc : Nat) (value : Memory → Nat → Word) (offsets : List Nat)
    (there : ∀ k ∈ offsets, ¬InWords (p + BitVec.ofNat 32 k).toNat 1 o)
    (here : ∀ k ∈ offsets, ¬InWords (oc + k) 1 o) :
    (offsets.foldl (fun m k => m.pokeSet (p + BitVec.ofNat 32 k) (oc + k) (value m k)) m).s.get o
      = m.s.get o := by
  induction offsets generalizing m with
  | nil => rfl
  | cons k offsets ih =>
    rw [List.foldl_cons, ih (fun j mem => there j (List.mem_cons_of_mem k mem))
      fun j mem => here j (List.mem_cons_of_mem k mem)]
    exact s_pokeSet _ (there k List.mem_cons_self) (here k List.mem_cons_self)

/-- Words written to the globals keep the bytes outside them. -/
lemma s_setGs {off : Nat} (vs : List Word) (outside : ∀ k < vs.length, ¬InWords (off + 4 * k) 1 o) :
    (m.setGs off vs).s.get o = m.s.get o := by
  have each : ∀ v ∈ vs.zipIdx, ¬InWords (off + 4 * v.2) 1 o := fun v mem =>
    outside v.2 (List.snd_lt_of_mem_zipIdx mem)
  unfold setGs
  generalize vs.zipIdx = l at each
  induction l generalizing m with
  | nil => rfl
  | cons v l ih =>
    rw [List.foldl_cons, ih fun w mem => each w (List.mem_cons_of_mem v mem)]
    exact s_setG _ (each v List.mem_cons_self)

end Memory

/-- Byte offsets of the words a pointer store rewrites. -/
def PointerStore.components : PointerStore → List Nat
  | .mulVF | .addV | .subV => [0, 4, 8]
  | .compound _ | .bitSet | .bitClr => [0]

/-- A compound store keeps the bytes outside its target and its result. -/
lemma Memory.s_pointerStore {m : Memory} {F : FloatOps} {op : PointerStore} {p : Word} {oa oc o : Nat}
    (there : ∀ k ∈ op.components, ¬InWords (p + BitVec.ofNat 32 k).toNat 1 o)
    (here : ∀ w ∈ (Micro.pointerStore op).written, ¬InWords (oc + 4 * w.2) 1 o) :
    (m.pointerStore F op p oa oc).s.get o = m.s.get o := by
  have first (mem : 0 ∈ op.components) : ¬InWords p.toNat 1 o := by
    have apart := there 0 mem
    rwa [show p + BitVec.ofNat 32 0 = p from BitVec.add_zero p] at apart
  have vector (w : (Micro.pointerStore op).written = [(.c, 0), (.c, 1), (.c, 2)]) :
      ∀ k ∈ [0, 4, 8], ¬InWords (oc + k) 1 o := by
    rw [w] at here
    simpa using here
  unfold pointerStore
  cases op with
  | compound op => exact s_pokeSet _ (first List.mem_cons_self) (here (.c, 0) List.mem_cons_self)
  | mulVF =>
    exact s_foldl_pokeSet oc (fun m' k => F.mul (m'.peek (p + BitVec.ofNat 32 k)) (m.g oa)) [0, 4, 8]
      there (vector rfl)
  | addV =>
    exact s_foldl_pokeSet oc (fun m k => F.add (m.peek (p + BitVec.ofNat 32 k)) (m.g (oa + k)))
      [0, 4, 8] there (vector rfl)
  | subV =>
    exact s_foldl_pokeSet oc (fun m k => F.sub (m.peek (p + BitVec.ofNat 32 k)) (m.g (oa + k)))
      [0, 4, 8] there (vector rfl)
  | bitSet => exact s_poke _ (first List.mem_cons_self)
  | bitClr => exact s_poke _ (first List.mem_cons_self)

namespace Core

variable {core : Core} {o : Nat}

/-- A store through a pointer keeps the bytes outside its range. -/
lemma s_ptrWrite {base offset : Word} {bytes : List Byte}
    (outside : ¬((base + offset).toNat ≤ o ∧ o < (base + offset).toNat + bytes.length)) :
    (core.ptrWrite base offset bytes).2.mem.s.get o = core.mem.s.get o := by
  have slow (err : WriteError) :
      (core.ptrWriteSlow base offset (base + offset) bytes err).2.mem = core.mem := by
    unfold ptrWriteSlow
    split
    next => rfl
    next =>
      split
      next =>
        dsimp only
        split
        next => rfl
        next => split <;> rfl
      next => split <;> rfl
  unfold ptrWrite
  dsimp only
  split
  next written => exact Memory.s_write written outside
  next => rw [mem_warn]
  next => rw [slow]

/-- The general compound store keeps the bytes outside its target and its result. -/
lemma s_compoundPointerStore {F : FloatOps} {op : PointerStore} {oa ob oc : Nat}
    (there : ∀ k ∈ op.components, ¬InWords (core.mem.g ob + BitVec.ofNat 32 k).toNat 1 o)
    (here : ∀ w ∈ (Micro.pointerStore op).written, ¬InWords (oc + 4 * w.2) 1 o) :
    (core.compoundPointerStore F op oa ob oc).2.mem.s.get o = core.mem.s.get o := by
  unfold compoundPointerStore
  dsimp only
  split
  next => exact Memory.s_pointerStore there here
  next => rw [mem_warn]
  next => rfl
  next => rfl

/-- A pointer reads as many bytes as asked for. -/
lemma length_ptrRead {n : Nat} {base offset : Word} {bytes : List Byte}
    (e : core.ptrRead n base offset = .ok bytes) : bytes.length = n := by
  unfold ptrRead at e
  split at e
  next read =>
    cases e
    unfold Memory.read at read
    obtain ⟨loc, -, read⟩ := Option.bind_eq_some_iff.mp read
    dsimp only at read
    split at read
    next =>
      cases read
      simp [Arr.slice]
    next => cases read
  next =>
    unfold ptrReadSlow at e
    dsimp only at e
    split at e
    next =>
      cases e
      exact List.length_replicate
    next =>
      split at e
      next => cases e
      next =>
        cases e
        simp [Arr.slice]

/-- A store to a field keeps region S. -/
lemma s_storeField (e f : Word) (vs : List Word) : (core.storeField e f vs).mem.s = core.mem.s := by
  unfold storeField
  split
  next => rw [mem_warn]
  next =>
    split
    next => rw [mem_warn]
    next =>
      split
      next => rw [mem_warn]
      next =>
        dsimp only
        rw [Memory.foldl_setEntWord]

/-- Reading a string keeps the memory. -/
lemma mem_strOrWarn (r : Word) : (core.strOrWarn r).2.mem = core.mem := by
  unfold strOrWarn
  split
  next => exact mem_warn _ _
  next => rfl

/-- A test of strings for equality keeps the memory. -/
lemma mem_stringsEqual (a b : Word) : (core.stringsEqual a b).2.mem = core.mem := by
  unfold stringsEqual
  split
  next => rfl
  next =>
    split
    next => exact mem_strOrWarn _
    next => exact (mem_strOrWarn _).trans (mem_strOrWarn _)

/-- A comparison of strings keeps the memory. -/
lemma mem_stringCompare (F : FloatOps) (ne : Bool) (a b : Word) :
    (core.stringCompare F ne a b).2.mem = core.mem := by
  have compared := core.mem_stringsEqual a b
  unfold stringCompare
  dsimp only
  split
  next => exact compared
  next => split <;> exact compared

end Core

/-- A word set through a view keeps the bytes outside it. -/
lemma View.get_set_of_outside {V : View} {s : Arr Byte} {off o : Nat} {v : Word} (r : V.Reaches off)
    (outside : ¬InWords off 1 o) : (V.set s off v).get o = s.get o := by
  unfold InWords at outside
  unfold View.set
  rw [View.mask_eq r]
  split
  next => exact Arr.get_write_of_outside (by rw [length_leBytes]; omega)
  next => rfl

/-- Words set through a view keep the bytes outside them. -/
lemma View.get_setWords_of_outside {V : View} {s : Arr Byte} {off o : Nat} {vs : List Word}
    (r : ∀ k < vs.length, V.Reaches (off + 4 * k))
    (outside : ∀ k < vs.length, ¬InWords (off + 4 * k) 1 o) :
    (V.setWords s off vs).get o = s.get o := by
  have each : ∀ v ∈ vs.zipIdx, V.Reaches (off + 4 * v.2) ∧ ¬InWords (off + 4 * v.2) 1 o :=
    fun v mem => ⟨r v.2 (List.snd_lt_of_mem_zipIdx mem), outside v.2 (List.snd_lt_of_mem_zipIdx mem)⟩
  unfold setWords
  generalize vs.zipIdx = l at each
  induction l generalizing s with
  | nil => rfl
  | cons v l ih =>
    rw [List.foldl_cons, ih fun w mem => each w (List.mem_cons_of_mem v mem)]
    obtain ⟨reach, apart⟩ := each v List.mem_cons_self
    exact get_set_of_outside reach apart

namespace Site

/-- Where in region S an operation may write beside the statement's operands: behind the pointer it
stores through, and the slots and globals that calls and indexed stores reach. -/
def Elsewhere (site : Site) (core : Core) (o : Nat) : Micro → Prop
  | .storeThrough base offset bytes | .ptrWrite base offset bytes =>
    (base + offset).toNat ≤ o ∧ o < (base + offset).toNat + bytes.length
  | .compound op => ∃ k ∈ (PointerStore.compound op).components,
    InWords (core.mem.g site.st.b + BitVec.ofNat 32 k).toNat 1 o
  | .pointerStore op => ∃ k ∈ op.components,
    InWords (core.mem.g site.st.b + BitVec.ofNat 32 k).toNat 1 o
  | .setGlobal .. | .enter .. | .leave => True
  | _ => False

variable {site : Site} {core : Core} {o : Nat}

/-- The view reaches the operands a statement names. -/
def Sees (site : Site) : Prop := ∀ s k, site.Names s → k < 3 → site.view.Reaches (site.offset s k)

/-- A view that sees a statement reaches the first word of its operands. -/
lemma Sees.first (sees : site.Sees) {s : Slot} (names : site.Names s) :
    site.view.Reaches (site.st.operand s) := sees s 0 names (by omega)

/-- An operation changes words at operands, and elsewhere only what `Elsewhere` says. -/
theorem s_handle {F : FloatOps} {f : Micro} (l : core.mem.Regions)
    (c : site.view.covers core.mem.s) (sees : site.Sees) (placed : site.Placed f)
    (here : ∀ w ∈ f.written, ¬InWords (site.offset w.1 w.2) 1 o)
    (there : ¬site.Elsewhere core o f) : (site.handle F f core).2.mem.s.get o = core.mem.s.get o := by
  cases f with
  | get | memGet | getGlobal | getRef | look | rand15 | setSwitch | setPushed | setArgc | ptrRead =>
    rfl
  | set s k v =>
    exact View.get_set_of_outside (sees s k placed.2 placed.1) (here (s, k) List.mem_cons_self)
  | memSet s k v => exact Memory.s_setG v (here (s, k) List.mem_cons_self)
  -- These may write anywhere, and `there` leaves them out.
  | setGlobal | enter | leave => exact absurd trivial there
  | warn kind => exact congrArg (fun m : Memory => m.s.get o) (Core.mem_warn _ kind)
  | badFieldAccess e f =>
    have same : ((core.markPc site.pc).badFieldAccess e f).mem = core.mem := by
      unfold Core.badFieldAccess
      split <;> exact Core.mem_warn _ _
    exact congrArg (fun m : Memory => m.s.get o) same
  | strOrWarn r => exact congrArg (fun m : Memory => m.s.get o) (Core.mem_strOrWarn r)
  | stringsEqual a b => exact congrArg (fun m : Memory => m.s.get o) (Core.mem_stringsEqual a b)
  | stringCompare ne a b =>
    exact congrArg (fun m : Memory => m.s.get o) (Core.mem_stringCompare F ne a b)
  | storeField words =>
    refine congrArg (fun s : Arr Byte => s.get o) ?_
    simp only [handle, Site.storeField]
    split
    next taken =>
      unfold Memory.storeFieldView at taken
      dsimp only at taken
      split at taken
      next => cases taken
      next =>
        split at taken
        next =>
          cases taken
          rfl
        next => cases taken
    next => exact (core.markPc site.pc).s_storeField _ _ _
  -- An inline store that is taken does what the general one does.
  | storeThrough base offset bytes =>
    simp only [handle, Site.storeThrough]
    split
    next m taken =>
      have slow := Core.ptrWrite_of_view l c placed taken
      have kept := @Core.s_ptrWrite core _ _ _ _ there
      rw [slow] at kept
      exact kept
    next => exact @Core.s_ptrWrite (core.markPc site.pc) _ _ _ _ there
  | ptrWrite base offset bytes => exact @Core.s_ptrWrite (core.markPc site.pc) _ _ _ _ there
  | loadThrough words base offset =>
    obtain ⟨⟨some, few⟩, names⟩ := placed
    have outside {bytes : List Byte} (len : bytes.length = 4 * words) :
        ∀ k < (blockWords bytes).length, k < words ∧ ¬InWords (site.st.c + 4 * k) 1 o := by
      intro k lt
      have lt' : k < words := by
        simp only [blockWords, List.length_map, List.length_range] at lt
        omega
      exact ⟨lt', here (.c, k) (List.mem_map.mpr ⟨k, List.mem_range.mpr lt', rfl⟩)⟩
    simp only [handle, Site.loadThrough]
    split
    next bytes taken =>
      have apart := outside (Core.length_ptrRead (Core.ptrRead_of_view l c (by omega) taken))
      exact View.get_setWords_of_outside
        (fun k lt => sees .c k names (Nat.lt_of_lt_of_le (apart k lt).1 few)) fun k lt => (apart k lt).2
    next =>
      split
      next bytes read => exact Memory.s_setGs _ fun k lt => (outside (Core.length_ptrRead read) k lt).2
      next => rfl
  | compound op =>
    have apart : ∀ k ∈ (PointerStore.compound op).components,
        ¬InWords (core.mem.g site.st.b + BitVec.ofNat 32 k).toNat 1 o :=
      fun k mem inside => there ⟨k, mem, inside⟩
    have here : ∀ w ∈ (Micro.pointerStore (.compound op)).written, ¬InWords (site.st.c + 4 * w.2) 1 o := by
      simpa [Micro.written, offset, Stmt.operand] using here
    obtain ⟨a, b, dst⟩ := placed
    have ga : site.view.g core.mem.s site.st.a = core.mem.g site.st.a := View.g_eq c (sees.first a)
    have gb : site.view.g core.mem.s site.st.b = core.mem.g site.st.b := View.g_eq c (sees.first b)
    simp only [handle, Site.compound]
    rw [ga, gb]
    split
    next v m taken =>
      have target : site.view.Reaches site.st.c := sees.first dst
      have slow := Core.compoundPointerStore_of_view l c target taken
      have kept := @Core.s_compoundPointerStore core o F _ site.st.a _ _ apart here
      rw [slow] at kept
      exact kept
    next => exact @Core.s_compoundPointerStore (core.markPc site.pc) _ _ _ _ _ _ apart here
  -- What a compound store leaves of its operands is its result in C.
  | pointerStore op =>
    refine @Core.s_compoundPointerStore (core.markPc site.pc) _ _ _ _ _ _
      (fun k mem inside => there ⟨k, mem, inside⟩) fun w mem => ?_
    have slot : w.1 = .c := by
      cases op <;> simp only [Micro.written, List.mem_cons, List.not_mem_nil, or_false] at mem <;>
        rcases mem with rfl | rfl | rfl <;> rfl
    have apart := here w mem
    unfold offset at apart
    rw [slot] at apart
    exact apart

end Site

/-! ## Blocks -/

/-- The byte lies in the globals of progs `pr`, or in the words behind them: three zero words, and two
guard words if the progs was added. -/
def ProgsState.InBlock (ps : ProgsState) (pr o : Nat) : Prop :=
  InWords ps.gbase (ps.numGlobals + if pr = 0 then 3 else 5) o

/-- What a statement of progs `pr` writes at an operand lies in the block, whatever it reads: the progs
was added, or the last word lies below the local stack. -/
def Stmt.Roomy (st : Stmt) (zero3 : Bool) (pr : Nat) (ps : ProgsState) : Prop :=
  pr ≠ 0 ∨ ∀ s n, st.op.written zero3 = some (s, n) →
    st.operand s + 4 * n ≤ ps.gbase + 4 * (ps.numGlobals + 3)

/-- The operations a statement performs from `core` on, until it is charged and then, each with the
core it is performed on. -/
def Site.performed (F : FloatOps) (exitDepth : Nat) (site : Site) (core : Core) : List (Micro × Core) :=
  let p := statement F site exitDepth
  p.trace (site.handle F) core ++
    match (p.run (site.handle F) core).1 with
    | .ok (.charge after) => after.trace (site.handle F) (p.run (site.handle F) core).2
    | _ => []

/-- An operation of a statement of progs `pr` writes at operands in its block only; so it leaves the
local stack, the strings and the other blocks to what it writes elsewhere. -/
structure Site.Isolated (F : FloatOps) (site : Site) (pr : Nat) (ps : ProgsState) (f : Micro)
    (core : Core) : Prop where
  inside : ∀ w ∈ f.written, ∀ o, InWords (site.offset w.1 w.2) 1 o → ps.InBlock pr o
  localStack : ∀ o, core.mem.InLocalStack o →
    (site.handle F f core).2.mem.s.get o ≠ core.mem.s.get o → site.Elsewhere core o f
  strings : ∀ (q : Nat) (other : ProgsState), core.progs[q]? = some other → ∀ o, other.InStrings o →
    (site.handle F f core).2.mem.s.get o ≠ core.mem.s.get o → site.Elsewhere core o f
  globals : ∀ (q : Nat) (other : ProgsState), core.progs[q]? = some other → q ≠ pr →
    ∀ o, other.InBlock q o →
    (site.handle F f core).2.mem.s.get o ≠ core.mem.s.get o → site.Elsewhere core o f

section Isolation

variable {core : Core} {pr : Nat} {ps : ProgsState} {o : Nat}

/-- The block of a progs holds no byte of the strings, of the local stack or of another block. -/
lemma Core.Blocks.apart_block (l : core.Blocks) (here : core.progs[pr]? = some ps)
    (inside : ps.InBlock pr o) :
    (∀ (q : Nat) (other : ProgsState), core.progs[q]? = some other → ¬other.InStrings o) ∧
      (∀ (q : Nat) (other : ProgsState), core.progs[q]? = some other → q ≠ pr → ¬other.InBlock q o) ∧
      ¬core.mem.InLocalStack o := by
  have below {q : Nat} {other : ProgsState} (in' : other.InBlock q o) :
      other.gbase ≤ o ∧ o < other.finish := by
    obtain ⟨lo, hi⟩ := in'
    unfold ProgsState.finish
    split at hi <;> omega
  obtain ⟨lo, hi⟩ := below inside
  have mem := List.mem_of_getElem? here
  have own := (l.based ps mem).sbase_le
  have others {q : Nat} {other : ProgsState} (at' : core.progs[q]? = some other) (ne : q ≠ pr) :
      other.finish ≤ ps.sbase ∨ ps.finish ≤ other.sbase := by
    rcases Nat.lt_or_gt_of_ne ne with lt | gt
    · exact .inl (l.before at' here lt)
    · exact .inr (l.before here at' gt)
  refine ⟨fun q other at' => ?_, fun q other at' ne in' => ?_, ?_⟩
  · rintro ⟨start, past⟩
    have strings := (l.based other (List.mem_of_getElem? at')).sbase_le
    by_cases same : q = pr
    · subst same
      cases at'.symm.trans here
      omega
    · have apart := others at' same
      unfold ProgsState.finish at apart hi
      omega
  · obtain ⟨lo', hi'⟩ := below in'
    have strings := (l.based other (List.mem_of_getElem? at')).sbase_le
    have apart := others at' ne
    omega
  · rintro ⟨start, past⟩
    obtain ⟨main, rest, e, h⟩ := l.headed
    rw [e] at here
    cases pr with
    | zero =>
      cases here
      have := inside.2
      rw [if_pos rfl, ← h.lsBase] at this
      omega
    | succ i =>
      have behind := h.rest ps (List.mem_of_getElem? here)
      unfold Memory.lsEnd at behind
      omega

/-- Wherever a view finds a statement, it is one of the code. -/
lemma View.of_stmtAt {V : View} {code : Arr Stmt} {pc : Nat} {st : Stmt}
    (e : V.stmtAt code pc = some st) : ∃ i < code.size, code.get i = st := by
  cases V with
  | whole =>
    obtain ⟨lt, e⟩ := Arr.get?_eq_some.mp e
    exact ⟨_, lt, e⟩
  | window =>
    obtain ⟨lt, e⟩ := Arr.get?_eq_some.mp e
    exact ⟨_, lt, e⟩

variable {F : FloatOps} {site : Site} {exitDepth : Nat} {f : Micro} {t : Core}

/-- The operation enters or leaves a function. -/
def Micro.Transfers : Micro → Prop
  | .enter .. | .leave => True
  | _ => False

/-- It names no word at an operand. -/
lemma Micro.Transfers.offsets (transfers : f.Transfers) (st : Stmt) :
    f.written = [] ∧ f.operandOffsets st = [] := by
  cases f with
  | enter | leave => exact ⟨rfl, rfl⟩
  | _ => exact transfers.elim

/-- An access that transfers control writes no operand. -/
lemma Micro.Transfers.elsewhere (transfers : f.Transfers) (t : Core) (o : Nat) :
    site.Elsewhere t o f := by
  cases f with
  | enter | leave => exact trivial
  | _ => exact transfers.elim

/-- What an operation that a statement performs keeps to, and what it is performed on. -/
lemma of_mem_performed (l : core.mem.Regions) (mem : (f, t) ∈ site.performed F exitDepth core) :
    core.Moved t ∧ f.Within (site.st.op.written core.config.compat.loadI64Zero3) ∧
      (site.Placed f ∨ f.Transfers) := by
  have keeps (g : Micro) (u : Core) (moved : core.Moved u) : core.Moved (site.handle F g u).2 :=
    moved.trans (site.handle_moved (moved.regions l) F g)
  have placed : (statement F site exitDepth).All site.Placed (site.Ends exitDepth) := placed_statement
  unfold Site.performed at mem
  dsimp only at mem
  rcases List.mem_append.mp mem with mem | mem
  · obtain ⟨p, moved⟩ := Prog.of_mem_trace placed keeps (.refl core) mem
    exact ⟨moved, within_statement mem, .inl p⟩
  · split at mem
    next after ended =>
      have charged := (Prog.run_value placed ended).2
      have start : core.Moved ((statement F site exitDepth).run (site.handle F) core).2 :=
        site.run_moved l F _
      have within := (Prog.of_mem_trace (keeps_charged charged
        (site.st.op.written core.config.compat.loadI64Zero3)) keeps start mem)
      refine ⟨within.2, within.1, ?_⟩
      cases charged with
      | next => cases mem
      | goto => cases mem
      | leave names =>
        have all : (Arm.leaveFunction exitDepth).All (fun f => site.Placed f ∨ f.Transfers)
            fun _ => True := by
          refine ((all_return names).mono (fun _ => .inl) fun _ q => q).bind fun _ _ => ?_
          exact ⟨.inr trivial, fun _ => trivial⟩
        exact (Prog.of_mem_trace all keeps start mem).1
      | dispatch call =>
        have all : (Arm.dispatch site).All (fun f => site.Placed f ∨ f.Transfers) fun _ => True := by
          refine (placed_dispatch (names_call call)).mono (fun f called => ?_) fun _ _ => trivial
          rcases called with p | ⟨prnum, index, rfl⟩
          · exact .inl p
          · exact .inr trivial
        exact (Prog.of_mem_trace all keeps start mem).1
    next => exact absurd mem List.not_mem_nil

/-- An operation of a statement for which there is room is isolated. -/
lemma isolated_of_roomy (l : core.Blocks) (regions : core.mem.Regions)
    (small : core.mem.s.size ≤ u32Max) (covers : site.view.covers core.mem.s)
    (window : site.view = .window → windowFits core = true)
    (here : core.progs[pr]? = some ps) {i : Nat} (lt : i < ps.code.size)
    (found : ps.code.get i = site.st)
    (room : site.st.Roomy core.config.compat.loadI64Zero3 pr ps)
    (mem : (f, t) ∈ site.performed F exitDepth core) : site.Isolated F pr ps f t := by
  obtain ⟨moved, within, placed⟩ := of_mem_performed regions mem
  have member := List.mem_of_getElem? here
  have linked := (l.progs ps member).stmt small lt
  rw [found] at linked
  -- Three words from a named operand on lie before the end of the block.
  have named {s : Slot} (names : site.Names s) : ∃ w < ps.numGlobals + 3,
      site.st.operand s = ps.gbase + 4 * w := linked.names s names
  have sees : site.Sees := by
    intro s k names few
    obtain ⟨w, less, e⟩ := named names
    unfold Site.offset
    rw [e]
    cases view : site.view with
    | whole => trivial
    | window =>
      have fits := window view
      unfold windowFits at fits
      simp only [Bool.and_eq_true, List.all_eq_true, decide_eq_true_eq] at fits
      have bound := (fits.2 ps member).1
      show ps.gbase + 4 * w + 4 * k < windowSpan
      omega
  have inside : ∀ w ∈ f.written, ∀ o, InWords (site.offset w.1 w.2) 1 o → ps.InBlock pr o := by
    intro w written o inWord
    obtain ⟨n, target, less⟩ := within w written
    have few := Op.written_le target
    have names : site.Names w.1 := by
      rcases placed with p | transfers
      · cases f with
        | set s k v | memSet s k v =>
          cases List.mem_singleton.mp written
          exact p.2
        | loadThrough words base offset =>
          obtain ⟨k, -, rfl⟩ := List.mem_map.mp written
          exact p.2
        | compound op =>
          cases List.mem_singleton.mp written
          exact p.2.2
        | pointerStore op =>
          have slot : w.1 = .c := by
            cases op <;> simp only [Micro.written, List.mem_cons, List.not_mem_nil, or_false] at written <;>
              rcases written with rfl | rfl | rfl <;> rfl
          rw [slot]
          exact p.2.2
        | _ => cases written
      · rw [(transfers.offsets site.st).1] at written
        exact absurd written List.not_mem_nil
    obtain ⟨j, jlt, e⟩ := named names
    unfold InWords Site.offset at inWord
    unfold ProgsState.InBlock InWords
    rcases room with added | fits
    · rw [if_neg added]
      omega
    · have := fits w.1 n target
      split <;> omega
  have blocks := (Core.blocks_invariant F).plain l moved.plain
  have here' : t.progs[pr]? = some ps := by
    rw [moved.plain.progs]
    exact here
  have changed {o : Nat} (outside : ¬ps.InBlock pr o)
      (ne : (site.handle F f t).2.mem.s.get o ≠ t.mem.s.get o) : site.Elsewhere t o f := by
    rcases placed with p | transfers
    · by_contra there
      have covers' : site.view.covers t.mem.s = true := by
        have size : t.mem.s.size = core.mem.s.size := congrArg Memory.Shape.sSize moved.mem.shape
        revert covers
        cases site.view with
        | whole => exact id
        | window =>
          unfold View.covers
          rw [size]
          exact id
      exact ne (Site.s_handle (moved.regions regions) covers' sees p
        (fun w written inWord => outside (inside w written o inWord)) there)
    · exact transfers.elsewhere t o
  exact
    { inside
      localStack := fun o stack => changed fun block => (blocks.apart_block here' block).2.2 stack
      strings := fun q other at' o string =>
        changed fun block => (blocks.apart_block here' block).1 q other at' string
      globals := fun q other at' ne o global =>
        changed fun block => (blocks.apart_block here' block).2.1 q other at' ne global }

end Isolation

/-- The core a statement runs on, once it has been traced. -/
def At.executing (a : At) (trace : Bool) : Core :=
  if trace then { a.core with traced := false } else a.core

/-- Wherever the interpreter is in a run, a statement writes at operands in its own block only, if there
is room for the words it writes. -/
theorem operands_isolated {F : FloatOps} {s : Sys} (r : s.Reachable F) {V : View} {trace : Bool}
    {exitDepth : Nat} {a : At} (i : s.Interprets F V trace exitDepth a) {st : Stmt}
    (found : V.stmtAt a.loc.code a.pc = some st) {pr : Nat} {ps : ProgsState}
    (here : a.core.progs[pr]? = some ps) (code : a.loc.code = ps.code)
    (room : st.Roomy a.core.config.compat.loadI64Zero3 pr ps) :
    ∀ f t, (f, t) ∈ (a.site V st).performed F exitDepth (a.executing trace) →
      (a.site V st).Isolated F pr ps f t := by
  have plain := (i.loaded r.base).1
  have layout := (plain.layout r.base.layout).mem
  have blocks := (Core.blocks_invariant F).plain r.blocks plain
  obtain ⟨k, less, e⟩ := View.of_stmtAt found
  rw [code] at less e
  have small := layout.small
  have fits : V = .window → windowFits a.core = true := by
    intro view
    rw [plain.windowFits, ← r.windowed]
    exact i.1 view
  -- The window's room is asked of the core before the statement; the flags do not change it.
  have covers : V.covers a.core.mem.s = true := by
    cases view : V with
    | whole => rfl
    | window =>
      have fits := fits view
      unfold windowFits at fits
      exact (Bool.and_eq_true_iff.mp fits).1
  have same : (a.executing trace).mem = a.core.mem ∧ (a.executing trace).progs = a.core.progs ∧
      (a.executing trace).config = a.core.config ∧ a.core.Plain (a.executing trace) := by
    unfold At.executing
    split <;> exact ⟨rfl, rfl, rfl, rfl, rfl, rfl, rfl⟩
  obtain ⟨mem, progs, config, quiet⟩ := same
  intro f t performed
  refine @isolated_of_roomy (a.executing trace) _ _ _ _ _ _ _ ((Core.blocks_invariant F).plain blocks quiet)
    ?_ ?_ ?_ ?_ ?_ k less e ?_ performed
  · rw [mem]
    exact layout.toRegions
  · rw [mem]
    exact small
  · rw [mem]
    exact covers
  · rw [quiet.windowFits]
    exact fits
  · rw [progs]
    exact here
  · rw [config]
    exact room

/-- A function that stores the vector at global 0 to another global. -/
def Asm.vectorStore (target : Nat) : Asm where
  statements := [⟨0, 0, 0, 0, none⟩, ⟨32, 0, target, 0, none⟩, ⟨0, 0, 0, 0, none⟩]
  functions := [⟨0, 0, 0, 0, 0, 0, []⟩, ⟨1, 0, 0, 0, 0, 0, []⟩]
  globals := [7, 7, 7]
  strings := [0]

/-- The host calls the first function. -/
def callFirst : List Action := [.call (.new 0 1) []]

/-- Where the loop of a system starts with its whole budget. -/
def Sys.first (s : Sys) (V : View) : Option At :=
  match start V s.vm.core s.vm.budget with
  | .running a => some a
  | .done _ => none

/-- A run interprets its first statement. -/
lemma Sys.interprets_first {F : FloatOps} {s : Sys} {V : View} {trace : Bool} {exitDepth : Nat}
    {a : At} (window : V = .window → s.vm.window = true) (e : s.first V = some a) :
    s.Interprets F V trace exitDepth a := by
  refine ⟨window, s.vm.core, s.vm.budget, 0, .refl _, ?_⟩
  unfold Sys.first at e
  show start V s.vm.core s.vm.budget = .running a
  split at e
  next running =>
    cases e
    exact running
  next => cases e

/-- At a vector store of a run in the window. -/
theorem operands_isolated_vectorStore : ∃ (s : Sys) (a : At) (st : Stmt) (ps : ProgsState),
    s.Interprets .onZero .window false 0 a ∧ View.stmtAt .window a.loc.code a.pc = some st ∧
    st.op = .storeV ∧ ∀ f t, (f, t) ∈ (a.site .window st).performed .onZero 0 (a.executing false) →
      (a.site .window st).Isolated .onZero 0 ps f t := by
  have test : ((Asm.vectorStore 3).boot .none .menu).any (fun vm =>
      (vm.start.actsIdleReset .onZero callFirst).any fun s => s.vm.window && (s.first .window).any fun a =>
        (View.stmtAt .window a.loc.code a.pc).any fun st => (a.core.progs[0]?).any fun ps =>
          decide (a.loc.prnum = 0) && decide (st.op = .storeV) &&
            decide (st.operand .b + 4 * 3 ≤ ps.gbase + 4 * (ps.numGlobals + 3))) = true := by
    decide +kernel
  obtain ⟨vm, boot, test⟩ := (Option.any_eq_true _ _).mp test
  obtain ⟨s, acts, test⟩ := (Option.any_eq_true _ _).mp test
  obtain ⟨window, test⟩ := Bool.and_eq_true_iff.mp test
  obtain ⟨a, first, test⟩ := (Option.any_eq_true _ _).mp test
  obtain ⟨st, found, test⟩ := (Option.any_eq_true _ _).mp test
  obtain ⟨ps, here, test⟩ := (Option.any_eq_true _ _).mp test
  simp only [Bool.and_eq_true, decide_eq_true_eq] at test
  obtain ⟨⟨main, op⟩, fits⟩ := test
  have r : s.Reachable .onZero := reachable_boot boot acts
  have i : s.Interprets .onZero .window false 0 a := s.interprets_first (fun _ => window) first
  have code : a.loc.code = ps.code := (i.loaded r.base).2.own (by omega) ps (by rw [main]; exact here)
  refine ⟨s, a, st, ps, i, found, op, operands_isolated r i found here code (.inr fun w n e => ?_)⟩
  rw [op] at e
  cases e
  exact fits

/-- The last word of the main progs that an operand may name has no two words behind it before the
local stack. -/
theorem operand_spills : ¬ ∀ (F : FloatOps) (s : Sys), s.Reachable F → ∀ (V : View) (trace : Bool)
    (exitDepth : Nat) (a : At), s.Interprets F V trace exitDepth a → ∀ (st : Stmt),
    V.stmtAt a.loc.code a.pc = some st → ∀ (pr : Nat) (ps : ProgsState),
    a.core.progs[pr]? = some ps → a.loc.code = ps.code →
    ∀ f t, (f, t) ∈ (a.site V st).performed F exitDepth (a.executing trace) →
      (a.site V st).Isolated F pr ps f t := by
  intro claim
  have test : ((Asm.vectorStore 5).boot .none .menu).any (fun vm =>
      (vm.start.actsIdleReset .onZero callFirst).any fun s => s.vm.window && (s.first .window).any fun a =>
        (View.stmtAt .window a.loc.code a.pc).any fun st => (a.core.progs[0]?).any fun ps =>
          decide (a.loc.prnum = 0) &&
            ((a.site .window st).performed .onZero 0 (a.executing false)).any fun p =>
              p.1.written.any fun w =>
                decide (ps.gbase + 4 * (ps.numGlobals + 3) ≤ (a.site .window st).offset w.1 w.2)) =
      true := by
    decide +kernel
  obtain ⟨vm, boot, test⟩ := (Option.any_eq_true _ _).mp test
  obtain ⟨s, acts, test⟩ := (Option.any_eq_true _ _).mp test
  obtain ⟨window, test⟩ := Bool.and_eq_true_iff.mp test
  obtain ⟨a, first, test⟩ := (Option.any_eq_true _ _).mp test
  obtain ⟨st, found, test⟩ := (Option.any_eq_true _ _).mp test
  obtain ⟨ps, here, test⟩ := (Option.any_eq_true _ _).mp test
  obtain ⟨main, test⟩ := Bool.and_eq_true_iff.mp test
  obtain ⟨⟨f, t⟩, performed, test⟩ := List.any_eq_true.mp test
  obtain ⟨w, written, spills⟩ := List.any_eq_true.mp test
  have main : a.loc.prnum = 0 := of_decide_eq_true main
  have spills := of_decide_eq_true spills
  have r : s.Reachable .onZero := reachable_boot boot acts
  have i : s.Interprets .onZero .window false 0 a := s.interprets_first (fun _ => window) first
  have code : a.loc.code = ps.code := (i.loaded r.base).2.own (by omega) ps (by rw [main]; exact here)
  have inBlock := (claim .onZero s r .window false 0 a i st found 0 ps here code f t performed).inside w
    written _ ⟨Nat.le_refl _, by omega⟩
  have below := inBlock.2
  rw [if_pos rfl] at below
  omega

end Qcvm

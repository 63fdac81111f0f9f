import Qcvm.Vm.Blocks
import Qcvm.Vm.Restore
import Qcvm.Vm.Words

/-!
# Resuming a thread

A thread holds bytes that it captured: its part of the local stack and the locals of its functions.
`resumeThread` enters the functions again and writes the bytes back. The stack bytes go to where the
first function now starts, so they lie where they were captured only if that is the same place.
-/

namespace Qcvm

open Lib

/-! ## Ranges of bytes -/

namespace Range

/-- The range, a start and a length, has byte `o`. -/
def Has (r : Nat × Nat) (o : Nat) : Prop := r.1 ≤ o ∧ o < r.1 + r.2

/-- The ranges have a byte in common. -/
def Meets (r q : Nat × Nat) : Prop := max r.1 q.1 < min (r.1 + r.2) (q.1 + q.2)

instance (r : Nat × Nat) (o : Nat) : Decidable (Has r o) := inferInstanceAs (Decidable (_ ∧ _))

instance (r q : Nat × Nat) : Decidable (Meets r q) := inferInstanceAs (Decidable (_ < _))

end Range

/-- A range of bytes is there exactly if it lies in the array. -/
lemma byteRange_eq_some {data : Arr Byte} {start finish : Nat} {bytes : List Byte} :
    byteRange data start finish = some bytes ↔
      (start ≤ finish ∧ finish ≤ data.size) ∧ bytes = data.slice start (finish - start) := by
  unfold byteRange
  split
  next fits =>
    rw [Option.some.injEq, eq_comm]
    exact ⟨fun e => ⟨fits, e⟩, fun e => e.2⟩
  next out => exact ⟨nofun, fun e => absurd e.1 out⟩

/-- The bytes of an array in some ranges. -/
def Lib.Arr.slices (data : Arr Byte) (ranges : List (Nat × Nat)) : List Byte :=
  ranges.flatMap fun r => data.slice r.1 r.2

/-- A block that was read from a range, and is written back there, is as it was. -/
lemma get_write_slice {s t : Arr Byte} {r : Nat × Nat} (fits : r.1 + r.2 ≤ t.size) (o : Nat) :
    (t.write r.1 (s.slice r.1 r.2)).get o = if Range.Has r o then s.get o else t.get o := by
  by_cases has : Range.Has r o
  · obtain ⟨lo, hi⟩ := has
    rw [if_pos ⟨lo, hi⟩, Arr.get_write_of_inside (by rw [Arr.length_slice]; exact fits) lo
      (by rw [Arr.length_slice]; exact hi), Arr.getD_slice s (by omega)]
    congr 1
    omega
  · rw [if_neg has]
    unfold Range.Has at has
    exact Arr.get_write_of_outside (by rw [Arr.length_slice]; omega)

namespace Core

variable {core core' : Core}

/-- Bytes that are written back to the ranges they were read from are as they were, whatever the
ranges have in common. -/
lemma get_restoreCaptured {s : Arr Byte} {ranges : List (Nat × Nat)} {t : Arr Byte}
    (fits : ∀ r ∈ ranges, r.1 + r.2 ≤ t.size) (o : Nat) :
    (restoreCaptured t ranges (s.slices ranges)).get o
      = if ∃ r ∈ ranges, Range.Has r o then s.get o else t.get o := by
  induction ranges generalizing t with
  | nil => exact (if_neg (by rintro ⟨r, mem, -⟩; cases mem)).symm
  | cons r ranges ih =>
    obtain ⟨here, rest⟩ := List.forall_mem_cons.mp fits
    have len : (s.slice r.1 r.2).length = r.2 := Arr.length_slice s r.1 r.2
    have front : (s.slices (r :: ranges)).take r.2 = s.slice r.1 r.2 := by
      unfold Arr.slices
      rw [List.flatMap_cons, List.take_append_of_le_length (Nat.le_of_eq len.symm),
        List.take_of_length_le (Nat.le_of_eq len)]
    have back : (s.slices (r :: ranges)).drop r.2 = s.slices ranges := by
      unfold Arr.slices
      rw [List.flatMap_cons, List.drop_append_of_le_length (Nat.le_of_eq len.symm),
        List.drop_of_length_le (Nat.le_of_eq len), List.nil_append]
    show (restoreCaptured (t.write r.1 ((s.slices (r :: ranges)).take r.2)) ranges
      ((s.slices (r :: ranges)).drop r.2)).get o = _
    have written := @ih (t.write r.1 (s.slice r.1 r.2)) rest
    rw [front, back, written, get_write_slice here]
    simp only [List.exists_mem_cons_iff]
    by_cases later : ∃ q ∈ ranges, Range.Has q o
    · rw [if_pos later, if_pos (.inr later)]
    · rw [if_neg later]
      by_cases now : Range.Has r o
      · rw [if_pos now, if_pos (.inl now)]
      · rw [if_neg now, if_neg (not_or.mpr ⟨now, later⟩)]

/-! ## What a snapshot captures -/

/-- The bytes of the locals of an activation's function. -/
def localsRange (core : Core) (a : Activation) : Option (Nat × Nat) := do
  let ps ← core.progs[a.prnum]?
  let f ← ps.program.functions[a.func]?
  return (ps.gbase + 4 * f.parmStart, 4 * f.locals)

/-- The bytes of the local stack that the functions above the nearest engine boundary use. -/
def stackRange (core : Core) : Option (Nat × Nat) :=
  (core.frames.reverse[core.entryDepth]?).map fun root =>
    (core.mem.lsBase + 4 * root.localsAt, 4 * (core.x.lsTop + core.x.pushed - root.localsAt))

/-- All the bytes a snapshot captures. -/
def captured (core : Core) : List (Nat × Nat) :=
  core.stackRange.toList ++ (core.chainAbove core.entryDepth).filterMap core.localsRange

/-- A snapshot that was taken. -/
structure Snapshot (core : Core) (wake : Word) (resume : Word × Word × Word) (ranges : List (Nat × Nat))
    (stack : Nat × Nat) (t : Thread) : Prop where
  spans : core.stackRange = some stack
  fits : ∀ r ∈ stack :: ranges, r.1 + r.2 ≤ core.mem.s.size
  locals : ∀ r ∈ ranges, r ∈ (core.chainAbove core.entryDepth).filterMap core.localsRange
  all : ∀ a ∈ core.chainAbove core.entryDepth, ∃ r ∈ ranges, core.localsRange a = some r
  thread : t =
    { wake := wake
      chain := core.chainAbove core.entryDepth
      data := core.mem.s.slice stack.1 stack.2 ++ core.mem.s.slices ranges
      stackLen := stack.2
      locals := ranges
      resume := resume
      selves := [ascii "self", ascii "other"].filterMap (core.captureSelf core.x.prnum) }

/-- Every function's locals are captured, once. -/
lemma ranges_captureLocals {seen : List (Nat × Nat)} {chain : List Activation}
    {ranges : List (Nat × Nat)} {data : List Byte}
    (e : core.captureLocals seen chain = some (ranges, data)) :
    data = core.mem.s.slices ranges ∧ (∀ r ∈ ranges, r.1 + r.2 ≤ core.mem.s.size) ∧
      (∀ r ∈ ranges, r ∈ chain.filterMap core.localsRange) ∧
      ∀ a ∈ chain, (a.prnum, a.func) ∈ seen ∨ ∃ r ∈ ranges, core.localsRange a = some r := by
  induction chain generalizing seen ranges data with
  | nil =>
    cases e
    exact ⟨rfl, nofun, nofun, nofun⟩
  | cons a chain ih =>
    unfold captureLocals at e
    split at e
    next again =>
      obtain ⟨bytes, fits, from', all⟩ := ih e
      refine ⟨bytes, fits, fun r mem => ?_, List.forall_mem_cons.mpr ⟨.inl again, all⟩⟩
      exact ((List.sublist_cons_self a chain).filterMap _).subset (from' r mem)
    next new =>
      obtain ⟨ps, progs, e⟩ := Option.bind_eq_some_iff.mp e
      obtain ⟨f, func, e⟩ := Option.bind_eq_some_iff.mp e
      obtain ⟨bytes, range, e⟩ := Option.bind_eq_some_iff.mp e
      obtain ⟨⟨others, rest⟩, below, e⟩ := Option.bind_eq_some_iff.mp e
      cases e
      obtain ⟨⟨-, inside⟩, rfl⟩ := byteRange_eq_some.mp range
      obtain ⟨rfl, fits, from', all⟩ := ih below
      have here : core.localsRange a = some (ps.gbase + 4 * f.parmStart, 4 * f.locals) := by
        simp [localsRange, progs, func]
      refine ⟨?_, List.forall_mem_cons.mpr ⟨inside, fits⟩, List.forall_mem_cons.mpr ⟨?_, fun r mem => ?_⟩,
        List.forall_mem_cons.mpr ⟨.inr ⟨_, List.mem_cons_self, here⟩, fun b mem => ?_⟩⟩
      · rw [Nat.add_sub_cancel_left]
        rfl
      · rw [List.filterMap_cons_some here]
        exact List.mem_cons_self
      · rw [List.filterMap_cons_some here]
        exact List.mem_cons_of_mem _ (from' r mem)
      · rcases all b mem with old | ⟨r, more, range⟩
        · rcases List.mem_append.mp old with old | same
          · exact .inl old
          · -- A function that is captured already has the same locals.
            refine .inr ⟨_, List.mem_cons_self, ?_⟩
            obtain ⟨prnum, index⟩ := Prod.mk.inj (List.mem_singleton.mp same)
            rw [← here]
            unfold localsRange
            rw [prnum, index]
        · exact .inr ⟨r, List.mem_cons_of_mem _ more, range⟩

/-- A snapshot that succeeds was taken. -/
lemma snapshots {wake : Word} {resume : Word × Word × Word} {t : Thread}
    (e : core.snapshot wake resume = some t) :
    ∃ ranges stack, core.Snapshot wake resume ranges stack t := by
  unfold snapshot at e
  obtain ⟨root, rooted, e⟩ := Option.bind_eq_some_iff.mp e
  obtain ⟨top, topped, e⟩ := Option.bind_eq_some_iff.mp e
  obtain ⟨stack, spanned, e⟩ := Option.bind_eq_some_iff.mp e
  obtain ⟨⟨locals, data⟩, below, e⟩ := Option.bind_eq_some_iff.mp e
  obtain ⟨-, rfl⟩ := checkedAdd_eq_some.mp topped
  obtain ⟨⟨le, inside⟩, rfl⟩ := byteRange_eq_some.mp spanned
  obtain ⟨rfl, fits, from', all⟩ := ranges_captureLocals below
  have len : core.mem.lsBase + 4 * (core.x.lsTop + core.x.pushed) - (core.mem.lsBase + 4 * root.localsAt)
      = 4 * (core.x.lsTop + core.x.pushed - root.localsAt) := by omega
  cases e
  refine ⟨locals, (core.mem.lsBase + 4 * root.localsAt,
    4 * (core.x.lsTop + core.x.pushed - root.localsAt)), ?_, ?_, from', fun a mem => ?_, ?_⟩
  · simp [stackRange, rooted]
  · refine List.forall_mem_cons.mpr ⟨?_, fits⟩
    dsimp only
    omega
  · exact (all a mem).resolve_left List.not_mem_nil
  · rw [len, Arr.length_slice]

/-! ## What resuming enters and writes -/

/-- The functions of a chain are entered one above the other; the stack of the first starts where that
of the caller ends. -/
lemma frames_enterChain {chain : List Activation} {resumePc : Nat}
    (e : enterChain chain resumePc core = (.ok (), core')) :
    ∃ fs : List Frame, core'.frames = fs ++ core.frames ∧
      fs.reverse.map Frame.activation ++ [core'.x.activation]
        = { core.x.activation with pc := resumePc } :: chain ∧
      ∀ root ∈ fs.reverse.head?, root.localsAt = core.x.lsTop + core.x.pushed := by
  induction chain generalizing core resumePc with
  | nil =>
    cases e
    exact ⟨[], rfl, rfl, nofun⟩
  | cons a chain ih =>
    simp only [enterChain] at e
    split at e
    next => cases e
    next entered here =>
      obtain ⟨ps, f, enters⟩ := enters here
      obtain ⟨fs, frames, activations, -⟩ := ih e
      refine ⟨fs ++ [core.saveFrame resumePc (core.x.lsTop + core.x.pushed)], ?_, ?_, ?_⟩
      · rw [frames, List.append_assoc]
        exact congrArg (fs ++ ·) enters.frames
      · have running : { entered.x.activation with
            pc := a.pc, pushed := a.pushed, switchRef := a.switchRef, switchKind := a.switchKind } = a := by
          unfold Exec.activation
          rw [enters.x]
        rw [List.reverse_append, List.map_append, List.append_assoc, activations]
        refine congrArg₂ List.cons rfl (congrArg (· :: chain) ?_)
        exact running
      · rw [List.reverse_append]
        rintro root ⟨⟩
        rfl

end Core

/-- What is written to `self` or `other` for an entity and its spawn serial. -/
def Memory.entityOr (m : Memory) (e : Word) (serial : Nat) : Word :=
  if (m.slots[e.toNat]?).any fun slot => slot.inUse && slot.serial == serial then e else 0

namespace Core

variable {core core' : Core}

/-- Restoring `self` or `other` writes the entity, or the world. -/
lemma restoreSelf_eq (m : Memory) (q : Nat × Word × Nat) :
    restoreSelf m q = m.setG q.1 (m.entityOr q.2.1 q.2.2) := rfl

/-- Bytes outside `self` and `other` are left alone. -/
lemma get_restoreSelves {selves : List (Nat × Word × Nat)} {m : Memory} {o : Nat}
    (outside : ∀ q ∈ selves, o < q.1 ∨ q.1 + 4 ≤ o) :
    (selves.foldl restoreSelf m).s.get o = m.s.get o := by
  induction selves generalizing m with
  | nil => rfl
  | cons q selves ih =>
    obtain ⟨here, rest⟩ := List.forall_mem_cons.mp outside
    rw [List.foldl_cons, ih rest, restoreSelf_eq]
    exact Memory.get_setG_of_outside here

/-- Restoring `self` and `other` changes only region S. -/
lemma onlyS_restoreSelves (selves : List (Nat × Word × Nat)) (m : Memory) :
    m.OnlyS (selves.foldl restoreSelf m) :=
  .foldl (fun m (q : Nat × Word × Nat) => Memory.onlyS_setG m q.1 _) selves m

/-- A word that none of the others disturbs holds its entity, or the world. -/
lemma g_restoreSelves {selves : List (Nat × Word × Nat)} {m : Memory} {off : Nat}
    (apart : ∀ q ∈ selves, off = q.1 ∨ off + 4 ≤ q.1 ∨ q.1 + 4 ≤ off) {v : Word}
    (same : ∀ q ∈ selves, off = q.1 → m.entityOr q.2.1 q.2.2 = v) (fits : off + 4 ≤ m.s.size)
    (written : m.g off = v ∨ ∃ q ∈ selves, off = q.1) :
    (selves.foldl restoreSelf m).g off = v := by
  induction selves generalizing m with
  | nil => exact written.resolve_right (by rintro ⟨q, mem, -⟩; cases mem)
  | cons q selves ih =>
    obtain ⟨here, rest⟩ := List.forall_mem_cons.mp apart
    obtain ⟨this, others⟩ := List.forall_mem_cons.mp same
    rw [List.foldl_cons]
    refine ih rest others fits ?_
    rw [restoreSelf_eq]
    by_cases at' : off = q.1
    · subst at'
      exact .inl ((Memory.g_setG_self fits).trans (this rfl))
    · refine written.imp (fun v => ?_) fun written => ?_
      · rw [Memory.g_setG_of_apart (here.resolve_left at').symm, v]
      · obtain ⟨q', mem, e⟩ := written
        rcases List.mem_cons.mp mem with rfl | mem
        · exact absurd e at'
        · exact ⟨q', mem, e⟩

/-! ## The activation that is restored -/

/-- The names a thread keeps. -/
def threadNames : List (List Byte) := [ascii "self", ascii "other"]

/-- The core continues the activation that a thread captured in another core. -/
structure Continues (core : Core) (resume : Word × Word × Word) (core' : Core) : Prop where
  chain : core'.chainAbove core'.entryDepth = core.chainAbove core.entryDepth
  /-- The words of the local stack are where they were. -/
  stack : ∀ r ∈ core.stackRange, ∀ o, Range.Has r o → core'.mem.s.get o = core.mem.s.get o
  locals : ∀ a ∈ core.chainAbove core.entryDepth, ∃ r, core.localsRange a = some r ∧
    core'.localsRange a = some r ∧ ∀ o, Range.Has r o → core'.mem.s.get o = core.mem.s.get o
  result : ∀ i, i < 3 → core'.mem.g (core'.gbase + ofsReturn + 4 * i)
    = [resume.1, resume.2.1, resume.2.2].getD i 0
  selves : ∀ name ∈ threadNames, ∀ q, core.captureSelf core.x.prnum name = some q →
    core'.namedGlobal core'.x.prnum name = some q.1 ∧ core'.mem.g q.1 = core'.mem.entityOr q.2.1 q.2.2

/-- The bytes of RETURN. -/
def resultRange (core : Core) : Nat × Nat := (core.gbase + ofsReturn, 12)

/-- The stack of a thread starts at the bottom, unless it has none. -/
def Grounded (core : Core) : Prop :=
  ∀ root ∈ core.frames.reverse[core.entryDepth]?,
    root.localsAt = 0 ∨ core.x.lsTop + core.x.pushed ≤ root.localsAt

/-- RETURN, `self` and `other` are none of the locals of the running functions, nor each other. -/
structure Separate (core : Core) : Prop where
  result : ∀ r ∈ core.captured, ¬ Range.Meets r core.resultRange
  selves : ∀ name ∈ threadNames, ∀ off ∈ core.namedGlobal core.x.prnum name,
    ¬ Range.Meets core.resultRange (off, 4) ∧ ∀ r ∈ core.captured, ¬ Range.Meets r (off, 4)

/-- A core with the progs of another, and maybe more. -/
structure Extends (core core' : Core) : Prop where
  lsBase : core'.mem.lsBase = core.mem.lsBase
  size : core.mem.s.size ≤ core'.mem.s.size
  progs : ∀ (i : Nat) (ps : ProgsState), core.progs[i]? = some ps →
    ∃ ps' : ProgsState, core'.progs[i]? = some ps' ∧ ps'.program = ps.program ∧ ps'.gbase = ps.gbase

/-- A core extends itself. -/
lemma Extends.refl (core : Core) : core.Extends core :=
  ⟨rfl, Nat.le_refl _, fun _ ps e => ⟨ps, e, rfl, rfl⟩⟩

/-- Whether a core extends another depends on its progs and region S alone. -/
lemma Extends.of_eq {core'' : Core} (h : core.Extends core')
    (lsBase : core''.mem.lsBase = core'.mem.lsBase) (size : core''.mem.s.size = core'.mem.s.size)
    (progs : core''.progs = core'.progs) : core.Extends core'' :=
  ⟨lsBase.trans h.lsBase, Nat.le_trans h.size (Nat.le_of_eq size.symm), fun i ps e => by
    rw [progs]
    exact h.progs i ps e⟩

/-- A plain change extends what the core extended. -/
lemma Extends.plain {core'' : Core} (h : core.Extends core') (p : core'.Plain core'') :
    core.Extends core'' :=
  h.of_eq (congrArg Memory.Shape.lsBase p.shape) (congrArg Memory.Shape.sSize p.shape) p.progs

/-- Nothing but a reset takes progs away or moves them. -/
lemma extends_kept (F : FloatOps) (core : Core) : PlainKept F core.Extends where
  plain h p := h.plain p
  host {now builtins} op h _ := by
    have hosted : Hosted F op now (now.host F builtins op) := now.hosted op
    rcases hosted.progs with ⟨progs, size⟩ | ⟨l, reserved, rfl⟩
    · exact h.of_eq hosted.stack.1 size progs
    · simp only [host]
      rcases addProgs_cases F now l.program builtins reserved with
        ⟨-, _, e⟩ | ⟨map, fields, fieldBytes, -, -, -, ⟨-, e⟩ | ⟨-, e⟩⟩
      · rw [e]
        exact h
      · rw [e]
        exact h.of_eq rfl rfl rfl
      · rw [e]
        have shape := (shape_linkExterns (now.joined F l.program builtins map fields fieldBytes)).trans
          shape_joined
        obtain ⟨names, progs⟩ := now.progs_joined F l.program builtins map fields fieldBytes
        refine ⟨(congrArg Memory.Shape.lsBase shape).trans h.lsBase, ?_, fun i ps at' => ?_⟩
        · have size : _ = now.nextEnd l.program := congrArg Memory.Shape.sSize shape
          have behind : now.mem.s.size ≤ now.nextStrings := le_alignUp _ (by omega)
          have grown : now.mem.s.size ≤ now.nextEnd l.program := by
            unfold nextEnd nextGlobals
            omega
          exact Nat.le_trans h.size (Nat.le_trans grown (Nat.le_of_eq size.symm))
        · obtain ⟨ps', here, program, gbase⟩ := h.progs i ps at'
          refine ⟨ps'.share names, ?_, program, gbase⟩
          show (now.joined F l.program builtins map fields fieldBytes).progs[i]? = _
          rw [progs, List.getElem?_map, List.getElem?_append_left (List.getElem?_eq_some_iff.mp here).1,
            here]
          rfl

section Extended

variable (h : core.Extends core')
include h

/-- A core that extends another has its functions' locals at the same place. -/
lemma Extends.localsRange {a : Activation} {r : Nat × Nat} (e : core.localsRange a = some r) :
    core'.localsRange a = some r := by
  unfold Core.localsRange at e ⊢
  obtain ⟨ps, at', e⟩ := Option.bind_eq_some_iff.mp e
  obtain ⟨ps', here, program, gbase⟩ := h.progs _ ps at'
  rw [here, Option.bind_eq_bind, Option.bind_some, program, gbase]
  exact e

/-- A core that extends another has its named globals at the same place. -/
lemma Extends.namedGlobal {prnum off : Nat} {name : List Byte}
    (e : core.namedGlobal prnum name = some off) : core'.namedGlobal prnum name = some off := by
  unfold Core.namedGlobal at e ⊢
  obtain ⟨ps, at', e⟩ := Option.bind_eq_some_iff.mp e
  obtain ⟨ps', here, program, gbase⟩ := h.progs _ ps at'
  rw [here, Option.bind_eq_bind, Option.bind_some, program, gbase]
  exact e

/-- A core that extends another has its globals at the same place. -/
lemma Extends.gbase {ps : ProgsState} (at' : core.progs[core.x.prnum]? = some ps)
    (same : core'.x.prnum = core.x.prnum) : core'.gbase = core.gbase ∧ core.gbase = ps.gbase := by
  obtain ⟨ps', here, -, gbase⟩ := h.progs _ ps at'
  unfold Core.gbase
  rw [same, here, at']
  exact ⟨gbase, rfl⟩

end Extended

/-- The bytes of a thread are written back; those of the stack go to `start`. -/
lemma get_writeBack {s t : Arr Byte} {stack : Nat × Nat} {ranges : List (Nat × Nat)} {start : Nat}
    (fits : ∀ r ∈ stack :: ranges, r.1 + r.2 ≤ t.size) (grounded : stack.1 = start ∨ stack.2 = 0)
    {r : Nat × Nat} (mem : r ∈ stack :: ranges) {o : Nat} (has : Range.Has r o) :
    (restoreCaptured (t.write start (s.slice stack.1 stack.2)) ranges (s.slices ranges)).get o
      = s.get o := by
  obtain ⟨here, rest⟩ := List.forall_mem_cons.mp fits
  have written := @get_restoreCaptured s ranges (t.write start (s.slice stack.1 stack.2)) rest o
  rw [written]
  by_cases inside : ∃ q ∈ ranges, Range.Has q o
  · rw [if_pos inside]
  · rw [if_neg inside]
    rcases List.mem_cons.mp mem with rfl | mem
    · rcases grounded with rfl | none
      · rw [get_write_slice here, if_pos has]
      · unfold Range.Has at has
        omega
    · exact absurd ⟨r, mem, has⟩ inside

/-- Two named globals are the same word or lie apart. -/
lemma namedGlobal_apart {prnum a b : Nat} {name name' : List Byte}
    (first : core.namedGlobal prnum name = some a) (second : core.namedGlobal prnum name' = some b) :
    a = b ∨ a + 4 ≤ b ∨ b + 4 ≤ a := by
  unfold namedGlobal at first second
  obtain ⟨ps, at', first⟩ := Option.bind_eq_some_iff.mp first
  obtain ⟨d, -, first⟩ := Option.bind_eq_some_iff.mp first
  rw [at', Option.bind_eq_bind, Option.bind_some] at second
  obtain ⟨d', -, second⟩ := Option.bind_eq_some_iff.mp second
  cases first
  cases second
  omega

/-- `self` and `other` as a thread keeps them. -/
lemma mem_selves {prnum : Nat} {q : Nat × Word × Nat}
    (mem : q ∈ threadNames.filterMap (core.captureSelf prnum)) :
    ∃ name ∈ threadNames, core.namedGlobal prnum name = some q.1 ∧
      q.2 = (core.mem.g q.1, (core.mem.slots[(core.mem.g q.1).toNat]?.map (·.serial)).getD 0) := by
  obtain ⟨name, here, captured⟩ := List.mem_filterMap.mp mem
  obtain ⟨off, named, rfl⟩ := Option.map_eq_some_iff.mp captured
  exact ⟨name, here, named, rfl⟩

/-- The words of RETURN, each where it belongs. -/
lemma g_setGs_three {m : Memory} {off : Nat} {a b c : Word} (fits : off + 12 ≤ m.s.size) {i : Nat}
    (lt : i < 3) : (m.setGs off [a, b, c]).g (off + 4 * i) = [a, b, c].getD i 0 := by
  show (((m.setG off a).setG (off + 4) b).setG (off + 8) c).g (off + 4 * i) = _
  obtain rfl | rfl | rfl : i = 0 ∨ i = 1 ∨ i = 2 := by omega
  · rw [Memory.g_setG_of_apart (by omega), Memory.g_setG_of_apart (by omega)]
    exact Memory.g_setG_self (by omega)
  · rw [Memory.g_setG_of_apart (by omega)]
    exact Memory.g_setG_self (Nat.le_trans (by omega) fits)
  · exact Memory.g_setG_self (Nat.le_trans (by omega) fits)

/-- Outside of the three words written the bytes are kept. -/
lemma get_setGs_three {m : Memory} {off o : Nat} {a b c : Word} (outside : o < off ∨ off + 12 ≤ o) :
    (m.setGs off [a, b, c]).s.get o = m.s.get o := by
  show (((m.setG off a).setG (off + 4) b).setG (off + 8) c).s.get o = _
  rw [Memory.get_setG_of_outside (by omega), Memory.get_setG_of_outside (by omega),
    Memory.get_setG_of_outside (by omega)]

/-- What the chain of a thread is entered as: its activations, above the frames that were there. -/
lemma chain_enterChain {above : List Activation} {top : Activation} {resumePc : Nat}
    (e : enterChain (above ++ [top]) resumePc core = (.ok (), core')) :
    core'.x.activation = top ∧ core'.chainAbove core.frames.length = above ++ [top] ∧
      ∃ root, core'.frames.reverse[core.frames.length]? = some root ∧
        root.localsAt = core.x.lsTop + core.x.pushed := by
  obtain ⟨fs, frames, activations, rooted⟩ := frames_enterChain e
  have last : core'.x.activation = top := by
    have ends := congrArg List.getLast? activations
    rw [List.getLast?_concat, ← List.cons_append, List.getLast?_concat] at ends
    exact Option.some.inj ends
  obtain ⟨root, others, reversed⟩ : ∃ root others, fs.reverse = root :: others := by
    cases reversed : fs.reverse with
    | cons root others => exact ⟨root, others, rfl⟩
    | nil =>
      rw [reversed] at activations
      have lengths := congrArg List.length activations
      simp only [List.map_nil, List.nil_append, List.length_cons, List.length_append] at lengths
      omega
  refine ⟨last, ?_, root, ?_, rooted root (by rw [reversed]; rfl)⟩
  · rw [reversed] at activations
    unfold chainAbove
    rw [frames, List.reverse_append, List.drop_append, List.length_reverse,
      List.drop_of_length_le (by rw [List.length_reverse]; exact Nat.le_succ _), List.nil_append,
      Nat.add_sub_cancel_left, reversed, List.drop_one, List.tail_cons]
    exact (List.cons.inj activations).2
  · rw [frames, List.reverse_append, List.getElem?_append_right (by rw [List.length_reverse]),
      List.length_reverse, Nat.sub_self, reversed]
    rfl

/-- The memory after a thread that was captured in a core wrote everything back: the stack to `start`,
the result to `off`. -/
def writtenBack (core : Core) (stack : Nat × Nat) (ranges : List (Nat × Nat))
    (resume : Word × Word × Word) (start off : Nat) (m : Memory) : Memory :=
  (threadNames.filterMap (core.captureSelf core.x.prnum)).foldl restoreSelf
    (Memory.setGs { m with
        s := restoreCaptured (m.s.write start (core.mem.s.slice stack.1 stack.2)) ranges
          (core.mem.s.slices ranges) }
      off [resume.1, resume.2.1, resume.2.2])

/-- A resumed thread's memory is what its snapshot captured, written back. -/
lemma mem_restoreThread {wake : Word} {resume : Word × Word × Word} {ranges : List (Nat × Nat)}
    {stack : Nat × Nat} {thread : Thread} (snap : core.Snapshot wake resume ranges stack thread)
    {depth : Nat} {root : Frame} (rooted : core'.frames.reverse[depth]? = some root) :
    (core'.restoreThread thread depth).mem = core.writtenBack stack ranges resume
      (core'.mem.lsBase + 4 * root.localsAt) (core'.gbase + ofsReturn) core'.mem := by
  have len : (core.mem.s.slice stack.1 stack.2).length = stack.2 := Arr.length_slice _ _ _
  have least : min stack.2 (core.mem.s.slice stack.1 stack.2 ++ core.mem.s.slices ranges).length
      = stack.2 := by
    rw [List.length_append, len]
    exact Nat.min_eq_left (Nat.le_add_right _ _)
  obtain ⟨r0, r1, r2⟩ := resume
  rw [snap.thread]
  simp only [restoreThread, least, rooted]
  rw [List.take_append_of_le_length (Nat.le_of_eq len.symm), List.take_of_length_le (Nat.le_of_eq len),
    List.drop_append_of_le_length (Nat.le_of_eq len.symm), List.drop_of_length_le (Nat.le_of_eq len),
    List.nil_append]
  rfl

/-- Writes to region S keep its size. -/
lemma size_of_onlyS {m m' : Memory} (h : m.OnlyS m') : m'.s.size = m.s.size := by
  obtain ⟨s, size, rfl⟩ := h
  exact size

section WrittenBack

variable {stack : Nat × Nat} {ranges : List (Nat × Nat)} {resume : Word × Word × Word}
variable {start off : Nat} {m : Memory}

/-- Writing a thread back changes only region S. -/
lemma onlyS_writtenBack :
    m.OnlyS (core.writtenBack stack ranges resume start off m) := by
  have restored : m.OnlyS { m with
      s := restoreCaptured (m.s.write start (core.mem.s.slice stack.1 stack.2)) ranges
        (core.mem.s.slices ranges) } :=
    .withS (size_restoreCaptured _ _ _)
  exact (restored.trans (Memory.onlyS_setGs _ _ _)).trans (onlyS_restoreSelves _ _)

/-- The captured bytes, if neither the result nor `self` or `other` is written there. -/
lemma get_writtenBack (fits : ∀ r ∈ stack :: ranges, r.1 + r.2 ≤ m.s.size)
    (grounded : stack.1 = start ∨ stack.2 = 0) {r : Nat × Nat} (mem : r ∈ stack :: ranges)
    (result : ¬ Range.Meets r (off, 12)) (selves : ∀ name ∈ threadNames,
      ∀ self ∈ core.namedGlobal core.x.prnum name, ¬ Range.Meets r (self, 4))
    {o : Nat} (has : Range.Has r o) :
    (core.writtenBack stack ranges resume start off m).s.get o = core.mem.s.get o := by
  unfold writtenBack
  have apart {q : Nat × Nat} (apart : ¬ Range.Meets r q) : o < q.1 ∨ q.1 + q.2 ≤ o := by
    unfold Range.Has at has
    unfold Range.Meets at apart
    omega
  rw [get_restoreSelves fun q kept => ?_, get_setGs_three (apart result)]
  · exact get_writeBack fits grounded mem has
  · obtain ⟨name, here, named, -⟩ := mem_selves kept
    exact apart (selves name here q.1 named)

/-- The result. -/
lemma result_writtenBack (fits : off + 12 ≤ m.s.size) (selves : ∀ name ∈ threadNames,
      ∀ self ∈ core.namedGlobal core.x.prnum name, ¬ Range.Meets (off, 12) (self, 4))
    {i : Nat} (lt : i < 3) : (core.writtenBack stack ranges resume start off m).g (off + 4 * i)
      = [resume.1, resume.2.1, resume.2.2].getD i 0 := by
  have apart : ∀ q ∈ threadNames.filterMap (core.captureSelf core.x.prnum),
      off + 4 * i + 4 ≤ q.1 ∨ q.1 + 4 ≤ off + 4 * i := by
    intro q kept
    obtain ⟨name, here, named, -⟩ := mem_selves kept
    have apart := selves name here q.1 named
    unfold Range.Meets at apart
    omega
  have size : (restoreCaptured (m.s.write start (core.mem.s.slice stack.1 stack.2)) ranges
      (core.mem.s.slices ranges)).size = m.s.size := size_restoreCaptured _ _ _
  refine g_restoreSelves (fun q kept => .inr (apart q kept)) (fun q kept e => ?_) ?_ (.inl ?_)
  · have := apart q kept
    omega
  · show off + 4 * i + 4 ≤ _
    rw [size_of_onlyS (Memory.onlyS_setGs _ _ _), size]
    omega
  · exact g_setGs_three (by rw [size]; exact fits) lt

/-- `self` and `other`: the entity they named, or the world. -/
lemma self_writtenBack (le : core.mem.s.size ≤ m.s.size) {name : List Byte} {q : Nat × Word × Nat}
    (mem : name ∈ threadNames) (e : core.captureSelf core.x.prnum name = some q) :
    (core.writtenBack stack ranges resume start off m).g q.1 = m.entityOr q.2.1 q.2.2 := by
  obtain ⟨self, named, rfl⟩ := Option.map_eq_some_iff.mp e
  have kept := List.mem_filterMap.mpr ⟨name, mem, e⟩
  have size : (core.writtenBack stack ranges resume start off m).s.size = m.s.size :=
    size_of_onlyS onlyS_writtenBack
  have restored : (restoreCaptured (m.s.write start (core.mem.s.slice stack.1 stack.2)) ranges
      (core.mem.s.slices ranges)).size = m.s.size := size_restoreCaptured _ _ _
  by_cases fits : self + 4 ≤ m.s.size
  · refine g_restoreSelves (fun q' other => ?_) (fun q' other at' => ?_) ?_ (.inr ⟨_, kept, rfl⟩)
    · obtain ⟨name', -, named', -⟩ := mem_selves other
      exact namedGlobal_apart named named'
    · obtain ⟨-, -, -, same⟩ := mem_selves other
      rw [← at'] at same
      rw [congrArg Prod.fst same, congrArg Prod.snd same]
      rfl
    · rw [size_of_onlyS (Memory.onlyS_setGs _ _ _), restored]
      exact fits
  · have zero (m' : Memory) (le : m'.s.size ≤ m.s.size) : m'.g self = 0 := by
      unfold Memory.g u32At
      rw [if_neg (by omega)]
      rfl
    dsimp only
    rw [zero _ (Nat.le_of_eq size), zero _ le]
    unfold Memory.entityOr
    split <;> rfl

end WrittenBack

/-- A thread that is resumed where the stack is empty continues what it captured. -/
lemma continues_resumeThread {wake : Word} {resume : Word × Word × Word} {thread : Thread} {pre : Core}
    (linked : core.Linked) (taken : core.snapshot wake resume = some thread) (h : core.Extends pre)
    (empty : pre.x.lsTop + pre.x.pushed = 0) (grounded : core.Grounded) (separate : core.Separate)
    (e : pre.resumeThread thread = (.ok (), core')) :
    core.Continues resume { core' with entryDepth := pre.frames.length } := by
  obtain ⟨ranges, stack, snap⟩ := snapshots taken
  unfold resumeThread at e
  dsimp only at e
  split at e
  next => cases e
  next entered chained =>
    cases e
    have plain := plain_enterChain thread.chain pre.x.pc pre
    rw [chained] at plain
    have h : core.Extends entered := h.plain plain
    have chain : thread.chain = core.chainAbove core.entryDepth := by rw [snap.thread]
    rw [chain] at chained
    obtain ⟨last, same, root, rooted, bottom⟩ := chain_enterChain chained
    have prnum : entered.x.prnum = core.x.prnum := congrArg Activation.prnum last
    -- The thread writes every captured byte to where it was.
    have mem := mem_restoreThread snap rooted
    rw [bottom, empty, h.lsBase] at mem
    have fits : ∀ r ∈ stack :: ranges, r.1 + r.2 ≤ entered.mem.s.size :=
      fun r mem => Nat.le_trans (snap.fits r mem) h.size
    have lands : stack.1 = core.mem.lsBase + 4 * 0 ∨ stack.2 = 0 := by
      obtain ⟨r, root, rfl⟩ := Option.map_eq_some_iff.mp snap.spans
      dsimp only
      rcases grounded r root with bottom | none
      · exact .inl (by rw [bottom])
      · exact .inr (by omega)
    have captured : ∀ r ∈ stack :: ranges, r ∈ core.captured := by
      refine List.forall_mem_cons.mpr ⟨?_, fun r mem => List.mem_append_right _ (snap.locals r mem)⟩
      refine List.mem_append_left _ ?_
      rw [snap.spans]
      exact List.mem_singleton_self _
    obtain ⟨_, -, located⟩ := snap.all core.x.activation
      (List.mem_append_right _ (List.mem_singleton_self _))
    obtain ⟨ps, at', -⟩ := Option.bind_eq_some_iff.mp located
    obtain ⟨gbase, base⟩ := h.gbase at' prnum
    have room : core.gbase + ofsReturn + 12 ≤ entered.mem.s.size := by
      have inside := (linked.progs ps (List.mem_of_getElem? at')).inside
      have size := h.size
      rw [base]
      unfold ofsReturn
      omega
    have bytes {r : Nat × Nat} (mine : r ∈ stack :: ranges) {o : Nat} (has : Range.Has r o) :
        (entered.restoreThread thread pre.frames.length).mem.s.get o = core.mem.s.get o := by
      rw [mem, gbase]
      exact get_writtenBack fits lands mine (separate.result r (captured r mine))
        (fun name here self named => (separate.selves name here self named).2 r (captured r mine)) has
    refine ⟨same, fun r span o has => ?_, fun a here => ?_, fun i lt => ?_, fun name here q kept => ?_⟩
    · rw [snap.spans] at span
      cases span
      exact bytes List.mem_cons_self has
    · obtain ⟨r, mine, located⟩ := snap.all a here
      exact ⟨r, located, h.localsRange located, fun o has => bytes (List.mem_cons_of_mem _ mine) has⟩
    · show (entered.restoreThread thread pre.frames.length).mem.g (entered.gbase + ofsReturn + 4 * i) = _
      rw [mem, gbase]
      exact result_writtenBack room
        (fun name here self named => (separate.selves name here self named).1) lt
    · obtain ⟨self, named, rfl⟩ := Option.map_eq_some_iff.mp kept
      refine ⟨?_, ?_⟩
      · show entered.namedGlobal entered.x.prnum name = some self
        rw [prnum]
        exact h.namedGlobal named
      · show (entered.restoreThread thread pre.frames.length).mem.g self = Memory.entityOr _ _ _
        have slots : (entered.restoreThread thread pre.frames.length).mem.slots = entered.mem.slots := by
          obtain ⟨s, -, only⟩ := @onlyS_writtenBack core stack ranges resume (core.mem.lsBase + 4 * 0)
            (entered.gbase + ofsReturn) entered.mem
          rw [mem, only]
        unfold Memory.entityOr
        rw [slots, mem]
        exact self_writtenBack h.size here kept

end Core

/-! ## Runs -/

namespace Sys

/-- The progs of the running function; a builtin that is called directly runs with its own. -/
def ownPrnum : List Pending → Nat → Nat
  | [], prnum => prnum
  | p :: rest, prnum =>
    match p.restore with
    | .entry _ => prnum
    | .prnum saved => ownPrnum rest saved

/-- The core, with the progs of the running function. -/
def own (s : Sys) : Core :=
  { s.vm.core with x := { s.vm.core.x with prnum := ownPrnum s.stack s.vm.core.x.prnum } }

/-- The systems that others lead to, unless the VM is reset, which drops all threads. -/
inductive Later (F : FloatOps) (s : Sys) : Sys → Prop where
  | here : Later F s s
  | step {a : Action} {t u : Sys} : Later F s t → a ≠ .reset → t.actIdleReset F a = some u → Later F s u

/-- `run_threads` goes on with a thread: it is the first one that is due, or the one it has in hand
when another ends. -/
inductive Wakes (F : FloatOps) (thread : Thread) (s : Sys) : Sys → Prop where
  | first {queue : List Thread} {t : Sys} : s.stack = [] → (s.vm.core.takeDue F).1 = thread :: queue →
    s.actIdleReset F .runThreads = some t → t.stack ≠ [] → Wakes F thread s t
  | next {queue : List Thread} {ran : Nat} {a : Action} {t : Sys} :
    s.waking = some (thread :: queue, ran) → s.actIdleReset F a = some t → t.waking = some (queue, ran + 1) →
    Wakes F thread s t

variable {F : FloatOps} {s t u : Sys} {thread : Thread}

/-- Sequences of actions can be joined. -/
lemma acts_append {as bs : List Action} (first : s.actsIdleReset F as = some t) (second : t.actsIdleReset F bs = some u) :
    s.actsIdleReset F (as ++ bs) = some u := by
  induction as generalizing s with
  | nil =>
    cases first
    exact second
  | cons a as ih =>
    obtain ⟨mid, step, rest⟩ := Option.bind_eq_some_iff.mp first
    exact Option.bind_eq_some_iff.mpr ⟨mid, step, ih rest⟩

/-- What an action leads to is reachable. -/
lemma Reachable.act {a : Action} (r : s.Reachable F) (e : s.actIdleReset F a = some t) : t.Reachable F := by
  obtain ⟨main, builtins, config, vm, as, start, acts⟩ := r
  exact ⟨main, builtins, config, vm, as ++ [a], start,
    acts_append acts (Option.bind_eq_some_iff.mpr ⟨t, e, rfl⟩)⟩

/-- What an action leads to later is later. -/
lemma Later.after {a : Action} (l : t.Later F u) (e : s.actIdleReset F a = some t) (other : a ≠ .reset) :
    s.Later F u := by
  induction l with
  | here => exact .step .here other e
  | step _ other e ih => exact ih.step other e

/-- What is later than a reachable system is reachable. -/
lemma Later.reachable (l : s.Later F t) (r : s.Reachable F) : t.Reachable F := by
  induction l with
  | here => exact r
  | step _ _ e ih => exact ih.act e

/-- Nothing that happens later takes progs away or moves them. -/
lemma Later.kept {P : Core → Prop} (Q : PlainKept F P) (l : s.Later F t) (b : s.Base)
    (h : P s.vm.core) : t.Base ∧ P t.vm.core := by
  induction l with
  | here => exact ⟨b, h⟩
  | @step a t u _ other e ih =>
    obtain ⟨b, h⟩ := ih
    exact (Q.rules a fun reset => absurd reset other).act h b e

/-- A thread was just resumed in `pre`, and is the only call. -/
structure Resumed (thread : Thread) (pre core : Core) (p : Pending) (u : Sys) : Prop where
  resumes : pre.resumeThread thread = (.ok (), core)
  core : u.vm.core = { core with entryDepth := pre.frames.length }
  stack : u.stack = [p]
  depth : p.exitDepth = pre.frames.length
  entry : ∃ saved, p.restore = .entry saved

/-- The head of the loop goes on with a thread once it is resumed. -/
lemma resumed_nextThread {queue : List Thread} {ran : Nat} (idle : s.stack = [])
    (goes : (s.nextThread (thread :: queue) ran).stack ≠ []) :
    ∃ pre core p, Resumed thread pre core p (s.nextThread (thread :: queue) ran) := by
  unfold nextThread at goes ⊢
  dsimp only at goes ⊢
  split at goes
  next => exact absurd idle goes
  next core e =>
    rw [idle]
    exact ⟨_, core, _, e, rfl, rfl, rfl, _, rfl⟩

/-- A system that goes on with a thread is later. -/
lemma Wakes.later (w : t.Wakes F thread u) (l : s.Later F t) : s.Later F u := by
  cases w with
  | first _ _ e _ => exact l.step (by nofun) e
  | @next queue ran a _ w e _ =>
    refine l.step ?_ e
    rintro rfl
    unfold waking at w
    rw [(actIdleReset_reset e).1] at w
    cases w

/-- The thread that is gone on with was just resumed. -/
lemma Wakes.resumed (w : t.Wakes F thread u) (b : t.Base) :
    ∃ pre core p, Resumed thread pre core p u := by
  cases w with
  | first idle due e busy =>
    have outermost : ¬ t.vm.core.nesting > 0 := by
      rw [b.nesting, idle]
      exact Nat.lt_irrefl 0
    have host : t.hostRuns = true := by
      unfold hostRuns
      rw [idle]
    rw [actIdleReset_of_ne (by nofun)] at e
    simp only [act, host, if_true, runThreads, if_neg outermost, due] at e
    cases e
    exact resumed_nextThread idle busy
  | @next queue ran a _ w e goes =>
    rcases act_waking b w e with ⟨same, -⟩ | ⟨v, r, idle, -, rfl⟩
    · rw [goes, w] at same
      exact absurd (congrArg Prod.snd (Option.some.inj same)) (Nat.succ_ne_self ran)
    · have busy : (v.endThread (thread :: queue) ran r).stack ≠ [] := by
        intro none
        rw [waking, none] at goes
        cases goes
      cases r with
      | error error => exact absurd idle busy
      | ok _ => exact resumed_nextThread idle busy

/-- A thread is resumed where the local stack is empty. -/
lemma Resumed.empty {pre core : Core} {p : Pending} (h : u.Resumed thread pre core p)
    (r : u.Reachable F) (some : thread.chain ≠ []) : pre.x.lsTop + pre.x.pushed = 0 := by
  have undoes := r.undone.undoes
  rw [h.stack] at undoes
  have idle := (undoes.above nofun).2.home
  obtain ⟨base, atop, settled⟩ := @Core.over_resumeThread u.vm.core.resets pre core thread some h.resumes
  have context : (core.context.unwind u.vm.core.resets pre.frames.length).settle u.vm.core.resets
      = ⟨.idle, []⟩ := by
    have same : core.context = u.vm.core.context := by rw [h.core]; rfl
    rw [← h.depth, same]
    have closed := idle.context
    obtain ⟨saved, entry⟩ := h.entry
    obtain ⟨exitDepth, doing, restore, origin⟩ := p
    cases entry
    cases origin <;> exact closed
  rw [atop.unwinds, settled] at context
  have lsTop : pre.x.lsTop = 0 := congrArg (fun c : Context => c.x.lsTop) context
  have pushed : pre.x.pushed = 0 := congrArg (fun c : Context => c.x.pushed) context
  omega

/-- The thread that is suspended, from what is captured. -/
lemma snapshot_of_suspends {delay : Word} {resume : Word × Word × Word}
    (taken : s.suspends F (.host (.suspend delay resume)) = [thread]) :
    s.vm.core.snapshot (F.add s.vm.core.qcTime delay) resume = some thread := by
  simp only [suspends] at taken
  split at taken
  next => exact Option.toList_eq_singleton_iff.mp taken
  next => cases taken

/-- What actions other than a reset lead to is later. -/
lemma later_of_acts {as : List Action} (keep : ∀ a ∈ as, a ≠ .reset) (e : s.actsIdleReset F as = some t) :
    s.Later F t := by
  induction as generalizing s with
  | nil =>
    cases e
    exact .here
  | cons a as ih =>
    obtain ⟨other, keep⟩ := List.forall_mem_cons.mp keep
    obtain ⟨mid, first, rest⟩ := Option.bind_eq_some_iff.mp e
    exact (ih keep rest).after first other

end Sys

deriving instance DecidableEq for Activation

deriving instance DecidableEq for Thread

/-- A function with one local that calls a builtin and returns. -/
def Asm.callsBuiltin : Asm where
  statements := [⟨0, 0, 0, 0, none⟩, ⟨51, 28, 0, 0, none⟩, ⟨0, 0, 0, 0, none⟩]
  functions := [⟨0, 0, 0, 0, 0, 0, []⟩, ⟨-1, 0, 0, 0, 0, 0, []⟩, ⟨1, 29, 1, 0, 0, 0, []⟩]
  globals := List.replicate 28 0 ++ [1, 0]
  strings := [0]

/-- A registry that has builtin 1. -/
def Builtins.one : Builtins := ⟨fun n => if n = 1 then some 0 else .none, fun _ => .none, fun _ => true⟩

/-- The host calls the function, which calls the builtin. -/
def callSleeper : List Action := [.call (.new 0 2) [], .run [] false]

/-- The builtin and the function return. -/
def returnSleeper : List Action := [.finish (.ok ()), .run [] false]

/-- The builtin sets the local of the function and calls it again. -/
def nestSleeper (v : Word) : List Action :=
  callSleeper ++ .host (.setGlobal 120 v) :: callSleeper

/-- A thread that `run_threads` goes on with continues the activation it captured: its functions, with
their statements, pushed words, switches and locals, and the words of the local stack where they were.
It is so if the captured stack is at the bottom of the local stack. -/
theorem thread_continues {F : FloatOps} {s m t u : Sys} {delay : Word} {resume : Word × Word × Word}
    {thread : Thread} (r : s.Reachable F)
    (taken : s.suspends F (.host (.suspend delay resume)) = [thread])
    (suspended : s.actIdleReset F (.host (.suspend delay resume)) = some m) (later : m.Later F t)
    (wakes : t.Wakes F thread u) (own : s.own.x.prnum = s.vm.core.x.prnum)
    (grounded : s.own.Grounded) (separate : s.own.Separate) : s.own.Continues resume u.vm.core := by
  have same : s.own = s.vm.core := by
    have prnum : Sys.ownPrnum s.stack s.vm.core.x.prnum = s.vm.core.x.prnum := own
    unfold Sys.own
    rw [prnum]
  rw [same] at grounded separate ⊢
  have captured := Sys.snapshot_of_suspends taken
  have chained : thread.chain ≠ [] := Sys.chain_ne_nil _ _ _ _ captured
  have kept := Core.extends_kept F s.vm.core
  have last : s.Later F u := wakes.later (later.after suspended (by nofun))
  obtain ⟨pre, core, p, h⟩ := wakes.resumed (later.reachable (r.act suspended)).base
  have empty := h.empty (last.reachable r) chained
  -- The progs stay where they are until then.
  have extended : s.vm.core.Extends pre := by
    have now := (last.kept kept r.base (.refl _)).2
    have plain := pre.plain_resumeThread thread
    rw [h.resumes] at plain
    rw [h.core] at now
    exact now.of_eq (congrArg Memory.Shape.lsBase plain.shape).symm
      (congrArg Memory.Shape.sSize plain.shape).symm plain.progs.symm
  rw [h.core]
  exact Core.continues_resumeThread r.blocks.toLinked captured extended empty grounded separate h.resumes

/-- At a builtin that suspends its caller, which is resumed. -/
theorem thread_continues_sleeper : ∃ (s u : Sys) (thread : Thread), thread.stackLen = 4 ∧
    s.suspends .onZero (.host (.suspend 0 (1, 0, 0))) = [thread] ∧
    s.own.Continues (1, 0, 0) u.vm.core := by
  have test : (Asm.callsBuiltin.boot .one .menu).any (fun vm =>
      (vm.start.actsIdleReset .onZero callSleeper).any fun s =>
        (s.suspends .onZero (.host (.suspend 0 (1, 0, 0)))).any fun thread =>
          (s.actIdleReset .onZero (.host (.suspend 0 (1, 0, 0)))).any fun m =>
            (m.actsIdleReset .onZero returnSleeper).any fun t => (t.actIdleReset .onZero .runThreads).any fun u =>
              decide (thread.stackLen = 4) &&
                decide (s.suspends .onZero (.host (.suspend 0 (1, 0, 0))) = [thread]) &&
                decide (t.stack.isEmpty ∧ !u.stack.isEmpty) &&
                decide ((t.vm.core.takeDue .onZero).1 = [thread]) &&
                decide (s.own.x.prnum = s.vm.core.x.prnum) &&
                decide (∀ root ∈ s.own.frames.reverse[s.own.entryDepth]?, root.localsAt = 0) &&
                decide (∀ r ∈ s.own.captured, ¬ Range.Meets r s.own.resultRange) &&
                decide (∀ name ∈ Core.threadNames, s.own.namedGlobal s.own.x.prnum name = Option.none)) = true := by
    decide +kernel
  obtain ⟨vm, boot, test⟩ := (Option.any_eq_true _ _).mp test
  obtain ⟨s, acts, test⟩ := (Option.any_eq_true _ _).mp test
  obtain ⟨thread, -, test⟩ := List.any_eq_true.mp test
  obtain ⟨m, suspended, test⟩ := (Option.any_eq_true _ _).mp test
  obtain ⟨t, returned, test⟩ := (Option.any_eq_true _ _).mp test
  obtain ⟨u, wakes, test⟩ := (Option.any_eq_true _ _).mp test
  simp only [Bool.and_eq_true, decide_eq_true_eq, Bool.not_eq_true', List.isEmpty_iff,
    List.isEmpty_eq_false_iff] at test
  obtain ⟨⟨⟨⟨⟨⟨⟨len, taken⟩, idle, busy⟩, due⟩, own⟩, bottom⟩, result⟩, none⟩ := test
  have later : m.Later .onZero t := Sys.later_of_acts (by unfold returnSleeper; simp) returned
  have selves : ∀ name ∈ Core.threadNames, ∀ off ∈ s.own.namedGlobal s.own.x.prnum name,
      ¬ Range.Meets s.own.resultRange (off, 4) ∧ ∀ r ∈ s.own.captured, ¬ Range.Meets r (off, 4) := by
    intro name here off named
    rw [none name here] at named
    cases named
  exact ⟨s, u, thread, len, taken, thread_continues (reachable_boot boot acts) taken suspended later
    (.first idle due wakes busy) own (fun root mem => .inl (bottom root mem)) ⟨result, selves⟩⟩

/-- A thread that is suspended in a call that QuakeC's builtin made has its stack words above others,
but is resumed at the bottom. -/
theorem thread_moves : ¬ ∀ (F : FloatOps) (s m t u : Sys) (delay : Word) (resume : Word × Word × Word)
    (thread : Thread), s.Reachable F → s.suspends F (.host (.suspend delay resume)) = [thread] →
    s.actIdleReset F (.host (.suspend delay resume)) = some m → m.Later F t → t.Wakes F thread u →
    s.own.Continues resume u.vm.core := by
  intro claim
  have test : (Asm.callsBuiltin.boot .one .menu).any (fun vm =>
      (vm.start.actsIdleReset .onZero (nestSleeper 7)).any fun s =>
        (s.suspends .onZero (.host (.suspend 0 (1, 0, 0)))).any fun thread =>
          (s.actIdleReset .onZero (.host (.suspend 0 (1, 0, 0)))).any fun m =>
            (m.actsIdleReset .onZero (returnSleeper ++ returnSleeper ++ nestSleeper 0 ++ returnSleeper
              ++ returnSleeper)).any fun t => (t.actIdleReset .onZero .runThreads).any fun u =>
              decide (s.suspends .onZero (.host (.suspend 0 (1, 0, 0))) = [thread]) &&
                decide (t.stack.isEmpty ∧ !u.stack.isEmpty) &&
                decide ((t.vm.core.takeDue .onZero).1 = [thread]) &&
                s.own.stackRange.any fun r =>
                  decide (0 < r.2 ∧ u.vm.core.mem.s.get r.1 ≠ s.own.mem.s.get r.1)) = true := by
    decide +kernel
  obtain ⟨vm, boot, test⟩ := (Option.any_eq_true _ _).mp test
  obtain ⟨s, acts, test⟩ := (Option.any_eq_true _ _).mp test
  obtain ⟨thread, -, test⟩ := List.any_eq_true.mp test
  obtain ⟨m, suspended, test⟩ := (Option.any_eq_true _ _).mp test
  obtain ⟨t, returned, test⟩ := (Option.any_eq_true _ _).mp test
  obtain ⟨u, wakes, test⟩ := (Option.any_eq_true _ _).mp test
  simp only [Bool.and_eq_true, decide_eq_true_eq, Bool.not_eq_true', List.isEmpty_iff,
    List.isEmpty_eq_false_iff] at test
  obtain ⟨⟨⟨taken, idle, busy⟩, due⟩, test⟩ := test
  obtain ⟨r, span, test⟩ := (Option.any_eq_true _ _).mp test
  obtain ⟨pos, differs⟩ := of_decide_eq_true test
  have later : m.Later .onZero t :=
    Sys.later_of_acts (by unfold returnSleeper nestSleeper callSleeper; simp) returned
  have continues := claim .onZero s m t u 0 (1, 0, 0) thread (reachable_boot boot acts) taken suspended
    later (.first idle due wakes busy)
  exact differs (continues.stack r span r.1 ⟨Nat.le_refl _, by omega⟩)

end Qcvm

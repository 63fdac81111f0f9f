import Qcvm.Vm.Blocks
import Qcvm.Vm.Restore
import Qcvm.Vm.Words

/-!
# The local stack

Entering a function saves its locals on the local stack, above the words its caller pushed; leaving
it moves them back. So what lies below the locals of a function stays as it is until the function is
left, whatever the function, its callees and the host do elsewhere.
-/

namespace Qcvm

open Lib

namespace Memory

/-- Byte `o` is one of the local stack. -/
def InStack (m : Memory) (o : Nat) : Prop := m.lsBase ≤ o ∧ o < m.lsBase + 4 * m.lsWords

/-- A block of region S apart from the local stack. -/
structure Clear (m : Memory) (addr len : Nat) : Prop where
  fits : addr + len ≤ m.s.size
  apart : addr + len ≤ m.lsBase ∨ m.lsEnd ≤ addr

variable {m m' : Memory}

/-- Whether a block is clear of the local stack depends on the shape alone. -/
lemma Clear.of_shape {addr len : Nat} (h : m.Clear addr len) (e : m'.shape = m.shape) :
    m'.Clear addr len := by
  have size := congrArg Shape.sSize e
  have lsBase := congrArg Shape.lsBase e
  have lsWords := congrArg Shape.lsWords e
  simp only [shape] at size lsBase lsWords
  refine ⟨?_, ?_⟩
  · rw [size]
    exact h.fits
  · unfold lsEnd
    rw [lsBase, lsWords]
    exact h.apart

/-- A byte of the stack is no byte of a block apart from it. -/
lemma Clear.not_inStack {addr len o : Nat} (h : m.Clear addr len) (inside : m.InStack o) :
    o < addr ∨ addr + len ≤ o := by
  have apart := h.apart
  unfold lsEnd at apart
  unfold InStack at inside
  omega

/-- A block that is moved lies where it was moved to; the rest stays. -/
lemma get_moveS {src dst len : Nat} (e : m.moveS src dst len = some m') (o : Nat) :
    m'.s.get o = if dst ≤ o ∧ o < dst + len then m.s.get (src + (o - dst)) else m.s.get o := by
  unfold moveS at e
  split at e
  next => cases e
  next inside =>
    cases e
    rw [not_or] at inside
    show (m.s.copyWithin src dst len).get o = _
    rw [Arr.get_copyWithin]
    by_cases within : dst ≤ o ∧ o < dst + len
    · rw [if_pos within, if_pos (by omega)]
    · rw [if_neg within, if_neg (by omega)]

/-- Copies of parameters keep the bytes outside their targets. -/
lemma get_copyParams {copies : List ParamCopy} {o : Nat}
    (outside : ∀ c ∈ copies, o < c.dst ∨ c.dst + 4 ≤ o) :
    (Core.copyParams m copies).s.get o = m.s.get o := by
  unfold Core.copyParams
  induction copies generalizing m with
  | nil => rfl
  | cons c copies ih =>
    obtain ⟨here, rest⟩ := List.forall_mem_cons.mp outside
    rw [List.foldl_cons, ih rest]
    exact get_setG_of_outside here

end Memory

/-- The saved locals and the pushed words of the callers lie one above the other, below `lsTop`, where
the saved locals of the running function end. -/
def Frame.Stacked : Nat → Nat → List Frame → Prop
  | _, _, [] => True
  | lsTop, words, f :: frames =>
    lsTop = f.localsAt + words ∧ f.pushed ≤ f.localsAt ∧
      Stacked (f.localsAt - f.pushed) f.localsWords frames

namespace Core

variable {F : FloatOps} {core core' c c' : Core}

/-- A VM with one progs, whose local stack is in order. -/
structure LocalStack (core : Core) : Prop where
  blocks : core.Blocks
  small : core.mem.s.size ≤ u32Max
  one : core.progs.length = 1
  running : core.mem.Clear core.x.localsAddr (4 * core.x.localsWords)
  callers : ∀ f ∈ core.frames, core.mem.Clear f.localsAddr (4 * f.localsWords)
  stacked : Frame.Stacked core.x.lsTop core.x.localsWords core.frames
  top_le : core.x.lsTop + core.x.pushed ≤ core.mem.lsWords

/-- Something that neither writes to the local stack nor enters, leaves or pushes. -/
structure Elsewhere (core core' : Core) : Prop where
  plain : core.Plain core'
  same : core.context.Same core'.context
  pushed : core'.x.pushed = core.x.pushed
  stack : ∀ o, core.mem.InStack o → core'.mem.s.get o = core.mem.s.get o

/-- A step of the local stack, or of anything else that leaves it alone. -/
inductive StackStep (F : FloatOps) (core : Core) : Core → Prop where
  | enter {prnum index resumePc : Nat} {core' : Core} :
    core.enter prnum index resumePc = (.ok (), core') → StackStep F core core'
  /-- A `PUSH`, whose operand is apart from the stack. -/
  | push {site : Site} {core' : Core} : core.mem.Clear (site.offset .c 0) 4 →
    Arm.push.run (site.handle F) core = (.ok (), core') → StackStep F core core'
  | leave : core.frames ≠ [] → StackStep F core core.leave
  | unwind (depth : Nat) : StackStep F core (core.unwind depth)
  | elsewhere {core' : Core} : core.Elsewhere core' → StackStep F core core'

/-- What follows in the same activation and its callees: the frames stay deeper than `depth`. -/
inductive Inside (F : FloatOps) (depth : Nat) (core : Core) : Core → Prop where
  | here : Inside F depth core core
  | step {c c' : Core} : Inside F depth core c → c.StackStep F c' → depth < c'.frames.length →
    Inside F depth core c'

namespace LocalStack

/-- The function that is entered has its locals and its parameters apart from the stack. -/
lemma function (h : core.LocalStack) {prnum index : Nat} {ps : ProgsState} {f : QcFunc}
    (found : core.lookupFunc prnum index = some (ps, f)) :
    core.mem.Clear f.localsAddr (4 * f.localsWords) ∧
      ∀ copy ∈ copiesOf ps f, core.mem.Clear copy.dst 4 := by
  obtain ⟨at', linked, placed⟩ := ProgsState.Linked.lookup h.blocks.toLinked h.small found
  have mem := List.mem_of_getElem? at'
  have apart := h.blocks.stack_apart mem
  have inside := linked.inside
  have limit : globalsTail = 3 := rfl
  refine ⟨?_, fun copy here => ?_⟩
  · obtain ⟨w, addr, words⟩ := placed.locals
    rw [addr]
    exact ⟨by omega, by omega⟩
  · have listed : copy ∈ ps.copies := by
      unfold copiesOf at here
      split at here
      next => exact List.mem_of_mem_take (List.mem_of_mem_drop here)
      next => cases here
    obtain ⟨-, w, lt, addr⟩ := linked.copies h.small listed
    rw [addr]
    exact ⟨by omega, by omega⟩

/-! ## What a step does -/

/-- Entering a function changes no byte of the stack but those it saves the locals to. -/
lemma get_enters (h : core.LocalStack) {prnum index resumePc : Nat} {ps : ProgsState} {f : QcFunc}
    (e : core.Enters prnum index resumePc ps f core') {o : Nat} (inside : core.mem.InStack o) :
    core'.mem.s.get o
      = if core.mem.lsBase + 4 * (core.x.lsTop + core.x.pushed) ≤ o ∧
          o < core.mem.lsBase + 4 * (core.x.lsTop + core.x.pushed) + 4 * f.localsWords then
        core.mem.s.get (f.localsAddr + (o - (core.mem.lsBase + 4 * (core.x.lsTop + core.x.pushed))))
      else core.mem.s.get o := by
  obtain ⟨m, m', same | ⟨-, more, -⟩, moved, written⟩ := e.mem
  · subst same
    rw [written, Memory.get_copyParams fun copy here => ?_]
    · exact Memory.get_moveS moved o
    · exact ((h.function e.found).2 copy here).not_inStack inside
  · rw [h.one] at more
    exact absurd more (Nat.lt_irrefl 1)

/-- Entering a function is plain. -/
lemma plain_enters {prnum index resumePc : Nat} (e : core.enter prnum index resumePc = (.ok (), core')) :
    core.Plain core' := by
  have moved := core.moved_enter prnum index resumePc
  rw [e] at moved
  exact moved.plain

/-- What holds of every core of the same shape and progs. -/
lemma plain (h : core.LocalStack) (p : core.Plain core') :
    core'.Blocks ∧ core'.mem.s.size ≤ u32Max ∧ core'.progs.length = 1 ∧
      core'.mem.lsWords = core.mem.lsWords := by
  have size : core'.mem.s.size = core.mem.s.size := congrArg Memory.Shape.sSize p.shape
  have lsBase : core'.mem.lsBase = core.mem.lsBase := congrArg Memory.Shape.lsBase p.shape
  have lsWords : core'.mem.lsWords = core.mem.lsWords := congrArg Memory.Shape.lsWords p.shape
  refine ⟨h.blocks.of_eq p.progs size lsBase lsWords, ?_, ?_, lsWords⟩
  · rw [size]
    exact h.small
  · rw [p.progs]
    exact h.one

/-- Entering a function keeps the local stack in order. -/
lemma enter (h : core.LocalStack) {prnum index resumePc : Nat}
    (e : core.enter prnum index resumePc = (.ok (), core')) : core'.LocalStack := by
  have p := plain_enters e
  obtain ⟨blocks, small, one, lsWords⟩ := h.plain p
  obtain ⟨ps, f, enters⟩ := enters e
  have apart := (h.function enters.found).1
  refine ⟨blocks, small, one, ?_, ?_, ?_, ?_⟩
  · rw [enters.x]
    exact apart.of_shape p.shape
  · rw [enters.frames]
    exact List.forall_mem_cons.mpr
      ⟨h.running.of_shape p.shape, fun frame mem => (h.callers frame mem).of_shape p.shape⟩
  · rw [enters.x, enters.frames]
    refine ⟨rfl, Nat.le_add_left _ _, ?_⟩
    show Frame.Stacked (core.x.lsTop + core.x.pushed - core.x.pushed) core.x.localsWords core.frames
    rw [Nat.add_sub_cancel]
    exact h.stacked
  · rw [enters.x, lsWords]
    exact enters.top_le

/-- What goes on elsewhere keeps the local stack in order. -/
lemma elsewhere (h : core.LocalStack) (w : core.Elsewhere core') : core'.LocalStack := by
  obtain ⟨blocks, small, one, lsWords⟩ := h.plain w.plain
  have frames : core'.frames = core.frames := w.same.frames
  have lsTop : core'.x.lsTop = core.x.lsTop := w.same.lsTop
  have addr : core'.x.localsAddr = core.x.localsAddr := w.same.localsAddr
  have words : core'.x.localsWords = core.x.localsWords := w.same.localsWords
  refine ⟨blocks, small, one, ?_, ?_, ?_, ?_⟩
  · rw [addr, words]
    exact h.running.of_shape w.plain.shape
  · rw [frames]
    exact fun frame mem => (h.callers frame mem).of_shape w.plain.shape
  · rw [lsTop, words, frames]
    exact h.stacked
  · rw [lsTop, w.pushed, lsWords]
    exact h.top_le

end LocalStack

/-- Among one progs nothing is copied on a return. -/
lemma switchOut_of_one (progs : core'.progs = core.progs) (one : core.progs.length = 1) {src dst : Nat}
    (ne : src ≠ dst) : core'.switchOut src dst = core' := by
  unfold switchOut
  split
  next a b first second =>
    rw [progs] at first second
    have := (List.getElem?_eq_some_iff.mp first).1
    have := (List.getElem?_eq_some_iff.mp second).1
    omega
  next => rfl

/-- Leaving a function of a single progs moves its locals back. -/
lemma leave_eq (one : core.progs.length = 1) {frame : Frame} {frames : List Frame}
    (e : core.frames = frame :: frames) :
    core.leave = { core.restoreLocals with
      frames := frames, x := core.resumeExec frame core.restoreLocals.x.lsTop } := by
  unfold leave
  dsimp only
  rw [show core.restoreLocals.frames = frame :: frames from e]
  dsimp only
  split
  next other =>
    refine switchOut_of_one ?_ one (Ne.symm other)
    rfl
  next => rfl

namespace LocalStack

/-- Leaving a function changes its locals only. -/
lemma get_leave (h : core.LocalStack) (deep : core.frames ≠ []) (o : Nat) :
    core.leave.mem.s.get o
      = if core.x.localsAddr ≤ o ∧ o < core.x.localsAddr + 4 * core.x.localsWords then
        core.mem.s.get (core.mem.lsBase + 4 * (core.x.lsTop - core.x.localsWords)
          + (o - core.x.localsAddr))
      else core.mem.s.get o := by
  obtain ⟨frame, frames, e⟩ := List.exists_cons_of_ne_nil deep
  rw [leave_eq h.one e]
  have stacked := h.stacked
  rw [e] at stacked
  have top := h.top_le
  obtain ⟨main, rest, -, headed⟩ := h.blocks.headed
  have finish := headed.lsEnd
  unfold Memory.lsEnd at finish
  have fits := h.running.fits
  obtain ⟨m, moved⟩ : ∃ m, core.mem.moveS (core.mem.lsBase + 4 * (core.x.lsTop - core.x.localsWords))
      core.x.localsAddr (4 * core.x.localsWords) = some m := by
    unfold Memory.moveS
    rw [if_neg]
    · exact ⟨_, rfl⟩
    · have := stacked.1
      omega
  have mem : core.restoreLocals.mem = m := by
    unfold restoreLocals
    dsimp only
    rw [moved]
    rfl
  rw [← Memory.get_moveS moved o, ← mem]

/-- Leaving a function keeps the local stack in order. -/
lemma leave (h : core.LocalStack) (deep : core.frames ≠ []) : core.leave.LocalStack := by
  have p := (core.moved_leave).plain
  obtain ⟨blocks, small, one, lsWords⟩ := h.plain p
  obtain ⟨frame, frames, e⟩ := List.exists_cons_of_ne_nil deep
  have callers := h.callers
  have stacked := h.stacked
  have top := h.top_le
  rw [e] at callers stacked
  obtain ⟨caller, callers⟩ := List.forall_mem_cons.mp callers
  obtain ⟨lsTop, pushed, below⟩ := stacked
  have left := leave_eq h.one e
  have x : core.leave.x = core.resumeExec frame (core.x.lsTop - core.x.localsWords) := by rw [left]; rfl
  refine ⟨blocks, small, one, ?_, ?_, ?_, ?_⟩
  · rw [x]
    exact caller.of_shape p.shape
  · rw [show core.leave.frames = frames by rw [left]]
    exact fun f mem => (callers f mem).of_shape p.shape
  · rw [x, show core.leave.frames = frames by rw [left]]
    show Frame.Stacked (core.x.lsTop - core.x.localsWords - frame.pushed) frame.localsWords frames
    rw [lsTop, Nat.add_sub_cancel]
    exact below
  · rw [x, lsWords]
    show core.x.lsTop - core.x.localsWords - frame.pushed + frame.pushed ≤ _
    omega

/-- `PUSH` claims words above those that are pushed, and writes their address to its operand. -/
lemma pushes (h : core.LocalStack) {site : Site}
    (e : Arm.push.run (site.handle F) core = (.ok (), core')) :
    ∃ words v, core.x.lsTop + (core.x.pushed + words) < core.mem.lsWords ∧
      core' = { core with
        x := { core.x with pushed := core.x.pushed + words }
        mem := core.mem.setG (site.offset .c 0) v } := by
  obtain ⟨main, rest, -, headed⟩ := h.blocks.headed
  have finish := headed.lsEnd
  have small := h.small
  unfold Memory.lsEnd at finish
  obtain ⟨words, first⟩ : ∃ words, words = (site.view.g core.mem.s (site.offset .a 0)).toNat := ⟨_, rfl⟩
  change Prog.run (site.handle F)
    (if saturatingAdd core.x.lsTop (saturatingAdd core.x.pushed
        (site.view.g core.mem.s (site.offset .a 0)).toNat) ≥ core.mem.lsWords then
      Prog.fail .pushedTooMuch
    else
      Prog.call (.setPushed (saturatingAdd core.x.pushed
          (site.view.g core.mem.s (site.offset .a 0)).toNat)) fun _ =>
        Arm.memSet .c 0 (BitVec.ofNat 32 (core.mem.lsBase + 4 * (core.x.lsTop + core.x.pushed)))) core
    = _ at e
  rw [← first] at e
  split at e
  next => cases e
  next full =>
    -- Nothing saturates below the end of the stack.
    have fits := Nat.lt_of_not_le full
    have pushed : saturatingAdd core.x.pushed words = core.x.pushed + words := by
      unfold saturatingAdd at fits ⊢
      omega
    rw [pushed] at e
    refine ⟨words, _, ?_, (Prod.mk.inj e).2.symm⟩
    unfold saturatingAdd at fits
    omega

/-- A push keeps the local stack in order. -/
lemma push (h : core.LocalStack) {site : Site}
    (e : Arm.push.run (site.handle F) core = (.ok (), core')) : core'.LocalStack := by
  obtain ⟨words, v, fits, rfl⟩ := h.pushes e
  have p : core.Plain { core with
      x := { core.x with pushed := core.x.pushed + words }
      mem := core.mem.setG (site.offset .c 0) v } := ⟨rfl, rfl, rfl, rfl⟩
  obtain ⟨blocks, small, one, -⟩ := h.plain p
  exact ⟨blocks, small, one, h.running.of_shape rfl, fun f mem => (h.callers f mem).of_shape rfl,
    h.stacked, Nat.le_of_lt fits⟩

/-- What every `leave` down to a depth keeps, unwinding keeps. -/
lemma unwind_induction {P : Core → Prop} {depth : Nat}
    (leaves : ∀ c : Core, P c → depth < c.frames.length → P c.leave) (c : Core) (h : P c) :
    P (c.unwind depth) := by
  unfold unwind
  induction n : c.frames.length - depth generalizing c with
  | zero => exact h
  | succ n ih =>
    rw [Function.iterate_succ_apply]
    refine ih c.leave (leaves c h (by omega)) ?_
    rw [c.length_leave]
    omega

/-- Unwinding keeps the local stack in order. -/
lemma unwind (h : core.LocalStack) (depth : Nat) : (core.unwind depth).LocalStack :=
  unwind_induction (fun _ h deep => h.leave (List.ne_nil_of_length_pos (by omega))) core h

/-- Every step keeps the local stack in order. -/
theorem step (h : core.LocalStack) (e : core.StackStep F core') : core'.LocalStack := by
  cases e with
  | enter e => exact h.enter e
  | push _ e => exact h.push e
  | leave deep => exact h.leave deep
  | unwind depth => exact h.unwind depth
  | elsewhere w => exact h.elsewhere w

end LocalStack

/-! ## What runs in an activation -/

/-- Unwinding does not raise the top of the local stack. -/
lemma lsTop_unwind_le (c : Context) (reset : Bool) (depth : Nat) :
    (c.unwind reset depth).x.lsTop ≤ c.x.lsTop := by
  unfold Context.unwind
  generalize c.frames.length - depth = n
  induction n generalizing c with
  | zero => exact Nat.le_refl _
  | succ n ih =>
    rw [Function.iterate_succ_apply]
    refine Nat.le_trans (ih _) ?_
    unfold Context.leave
    dsimp only
    split
    next => exact Nat.sub_le _ _
    next => exact Nat.le_trans (Nat.sub_le _ _) (Nat.sub_le _ _)

/-- The same function, with the same callers, unwinds to the same. -/
lemma same_unwind {c c' : Context} (s : c.Same c') (reset : Bool) (depth : Nat) :
    (c.unwind reset depth).Same (c'.unwind reset depth) := by
  rcases Nat.lt_or_ge depth c.frames.length with deep | le
  · rw [s.unwind deep]
    exact .refl _
  · rw [Context.unwind_of_le le, Context.unwind_of_le (by rw [s.frames]; exact le)]
    exact s

/-- A core that runs in an activation or in its callees: it goes back to it, and what lies below the
activation's saved locals, and these, are as they were. -/
structure Within (core c : Core) : Prop where
  localStack : c.LocalStack
  plain : core.Plain c
  unwinds : core.context.Same (c.context.unwind core.resets core.frames.length)
  below : ∀ o, core.mem.lsBase ≤ o → o < core.mem.lsBase + 4 * core.x.lsTop →
    c.mem.s.get o = core.mem.s.get o

namespace Within

/-- A core runs within its own activation. -/
lemma refl (h : core.LocalStack) : core.Within core :=
  have here : core.context.frames.length ≤ core.frames.length := Nat.le_refl _
  ⟨h, .refl core, by rw [Context.unwind_of_le here]; exact .refl _, fun _ _ _ => rfl⟩

/-- Within an activation calls reset the switch as before. -/
lemma resets (w : core.Within c) : c.resets = core.resets :=
  congrArg (fun config : VmConfig => config.compat.switchResetOnCall) w.plain.config

/-- Within an activation the stack ends above it. -/
lemma le (w : core.Within c) : core.x.lsTop ≤ c.x.lsTop := by
  have top : (c.context.unwind core.resets core.frames.length).x.lsTop = core.x.lsTop := w.unwinds.lsTop
  rw [← top]
  exact lsTop_unwind_le _ _ _

/-- A byte below the activation is one of the stack, and lies below what `c` uses. -/
lemma inStack (w : core.Within c) {o : Nat} (lo : core.mem.lsBase ≤ o)
    (hi : o < core.mem.lsBase + 4 * core.x.lsTop) :
    c.mem.InStack o ∧ o < c.mem.lsBase + 4 * (c.x.lsTop + c.x.pushed) := by
  have lsBase : c.mem.lsBase = core.mem.lsBase := congrArg Memory.Shape.lsBase w.plain.shape
  have top := w.localStack.top_le
  have le := w.le
  unfold Memory.InStack
  omega

/-- What neither enters nor leaves stays in the activation. -/
lemma same (w : core.Within c) (h : c'.LocalStack) (p : c.Plain c') (s : c.context.Same c'.context)
    (stack : ∀ o, c.mem.InStack o → c'.mem.s.get o = c.mem.s.get o) : core.Within c' where
  localStack := h
  plain := w.plain.trans p
  unwinds := w.unwinds.trans (same_unwind s _ _)
  below o lo hi := (stack o (w.inStack lo hi).1).trans (w.below o lo hi)

/-- Entering a callee stays within an activation. -/
lemma enter (w : core.Within c) (deep : core.frames.length ≤ c.frames.length)
    {prnum index resumePc : Nat} (e : c.enter prnum index resumePc = (.ok (), c')) :
    core.Within c' := by
  obtain ⟨ps, f, enters⟩ := enters e
  refine ⟨w.localStack.enter e, w.plain.trans (LocalStack.plain_enters e), ?_, fun o lo hi => ?_⟩
  · have above : core.frames.length < c'.context.frames.length := by
      show core.frames.length < c'.frames.length
      rw [enters.frames, List.length_cons]
      omega
    rw [← Context.unwind_leave above, enters.leave]
    have same : c.context.Same (c.context.resumeAt core.resets resumePc) := ⟨rfl, rfl, rfl, rfl, rfl, rfl⟩
    exact w.unwinds.trans (same_unwind same _ _)
  · obtain ⟨inside, lt⟩ := w.inStack lo hi
    rw [w.localStack.get_enters enters inside, if_neg (by omega)]
    exact w.below o lo hi

/-- Leaving a callee stays within an activation. -/
lemma leave (w : core.Within c) (deep : core.frames.length < c.frames.length) : core.Within c.leave := by
  have some : c.frames ≠ [] := List.ne_nil_of_length_pos (by omega)
  refine ⟨w.localStack.leave some, w.plain.trans (moved_leave c).plain, ?_, fun o lo hi => ?_⟩
  · rw [c.context_leave, w.resets, Context.unwind_leave deep]
    exact w.unwinds
  · obtain ⟨inside, -⟩ := w.inStack lo hi
    have outside := w.localStack.running.not_inStack inside
    rw [w.localStack.get_leave some, if_neg (by omega)]
    exact w.below o lo hi

/-- Unwinding down to an activation stays within it. -/
lemma unwind (w : core.Within c) {depth : Nat} (le : core.frames.length ≤ depth) :
    core.Within (c.unwind depth) :=
  LocalStack.unwind_induction (fun _ w deep => w.leave (by omega)) c w

/-- Every step that does not leave the activation stays in it. -/
theorem step (w : core.Within c) (e : c.StackStep F c') (before : core.frames.length ≤ c.frames.length)
    (after : core.frames.length ≤ c'.frames.length) : core.Within c' := by
  cases e with
  | enter e => exact w.enter before e
  | @push site _ clear e =>
    have h := w.localStack.push e
    obtain ⟨words, v, fits, rfl⟩ := w.localStack.pushes e
    refine w.same h ⟨rfl, rfl, rfl, rfl⟩ ⟨rfl, rfl, rfl, rfl, rfl, rfl⟩ fun o inside => ?_
    exact Memory.get_setG_of_outside (clear.not_inStack inside)
  | leave some =>
    rw [c.length_leave] at after
    have := List.length_pos_iff.mpr some
    exact w.leave (by omega)
  | unwind depth =>
    have length := @Context.length_unwind c.resets depth c.context
    rw [← c.context_unwind] at length
    have length : (c.unwind depth).frames.length = min c.frames.length depth := length
    exact w.unwind (by omega)
  | elsewhere other => exact w.same (w.localStack.elsewhere other) other.plain other.same other.stack

end Within

/-- What follows in an activation and its callees runs within it. -/
lemma Inside.within {depth : Nat} (i : Inside F depth core c) (h : core.LocalStack)
    (deep : core.frames.length = depth + 1) : core.Within c ∧ depth < c.frames.length := by
  induction i with
  | here => exact ⟨.refl h, by omega⟩
  | step _ e above ih => exact ⟨ih.1.step e (by have := ih.2; omega) (by omega), above⟩

/-- What entering a function from `before`, to `entered`, and running in it to `now` keeps. -/
structure Preserves (before entered now : Core) : Prop where
  /-- The words that were pushed and the locals that were saved until then. -/
  callers : ∀ o, before.mem.lsBase ≤ o → o < before.mem.lsBase + 4 * (before.x.lsTop + before.x.pushed) →
    now.mem.s.get o = before.mem.s.get o
  /-- The locals that are saved for the function. -/
  saved : ∀ i < 4 * entered.x.localsWords,
    now.mem.s.get (before.mem.lsBase + 4 * (before.x.lsTop + before.x.pushed) + i)
      = before.mem.s.get (entered.x.localsAddr + i)
  /-- When the function is left its locals are as they were. -/
  locals : ∀ i < 4 * entered.x.localsWords,
    (now.unwind before.frames.length).mem.s.get (entered.x.localsAddr + i)
      = before.mem.s.get (entered.x.localsAddr + i)
  /-- Then its caller goes on where its stack ended. -/
  caller : before.context.Same (now.unwind before.frames.length).context ∧
    (now.unwind before.frames.length).x.pushed = before.x.pushed

/-- Unwinding by one frame leaves the innermost function. -/
lemma unwind_of_succ {depth : Nat} (deep : depth < core.frames.length) :
    core.unwind depth = (core.unwind (depth + 1)).leave := by
  unfold unwind
  rw [← Function.iterate_succ_apply' leave,
    show core.frames.length - depth = (core.frames.length - (depth + 1)) + 1 by omega]

/-- The stack below an activation is what it was, with its locals on top. -/
lemma Within.stack (h : core.LocalStack) {prnum index resumePc : Nat} {ps : ProgsState} {f : QcFunc}
    {entered : Core} (e : core.Enters prnum index resumePc ps f entered) (p : core.Plain entered)
    (w : entered.Within c) :
    (∀ o, core.mem.lsBase ≤ o → o < core.mem.lsBase + 4 * (core.x.lsTop + core.x.pushed) →
        c.mem.s.get o = core.mem.s.get o) ∧
      ∀ i < 4 * f.localsWords,
        c.mem.s.get (core.mem.lsBase + 4 * (core.x.lsTop + core.x.pushed) + i)
          = core.mem.s.get (f.localsAddr + i) := by
  have lsBase : entered.mem.lsBase = core.mem.lsBase := congrArg Memory.Shape.lsBase p.shape
  have lsTop : entered.x.lsTop = core.x.lsTop + core.x.pushed + f.localsWords := by rw [e.x]
  have top := e.top_le
  refine ⟨fun o lo hi => ?_, fun i lt => ?_⟩
  · rw [w.below o (by omega) (by omega), h.get_enters e ⟨lo, by omega⟩, if_neg (by omega)]
  · rw [w.below _ (by omega) (by omega), h.get_enters e ⟨by omega, by omega⟩, if_pos (by omega),
      Nat.add_sub_cancel_left]

/-- Whatever runs in an activation preserves what it found, and its locals come back. -/
lemma Inside.preserves {prnum index resumePc : Nat} {entered : Core} (h : core.LocalStack)
    (e : core.enter prnum index resumePc = (.ok (), entered))
    (i : Inside F core.frames.length entered c) : core.Preserves entered c := by
  obtain ⟨ps, f, enters⟩ := enters e
  have p := LocalStack.plain_enters e
  have depth : entered.frames.length = core.frames.length + 1 := by rw [enters.frames]; rfl
  obtain ⟨w, above⟩ := i.within (h.enter e) depth
  have words : entered.x.localsWords = f.localsWords := by rw [enters.x]
  have addr : entered.x.localsAddr = f.localsAddr := by rw [enters.x]
  have lsTop : entered.x.lsTop = core.x.lsTop + core.x.pushed + f.localsWords := by rw [enters.x]
  obtain ⟨callers, saved⟩ := w.stack h enters p
  -- The callees are unwound first; then the function itself runs again.
  have last : entered.Within (c.unwind (core.frames.length + 1)) := w.unwind (by omega)
  have length := @Context.length_unwind c.resets (core.frames.length + 1) c.context
  rw [← c.context_unwind] at length
  have length : (c.unwind (core.frames.length + 1)).frames.length = core.frames.length + 1 :=
    length.trans (Nat.min_eq_right above)
  have same : entered.context.Same (c.unwind (core.frames.length + 1)).context := by
    have unwinds := last.unwinds
    rwa [Context.unwind_of_le (Nat.le_of_eq (length.trans depth.symm))] at unwinds
  have some : (c.unwind (core.frames.length + 1)).frames ≠ [] :=
    List.ne_nil_of_length_pos (by omega)
  have ends := unwind_of_succ above
  refine ⟨callers, fun i lt => ?_, fun i lt => ?_, ?_⟩
  · rw [words] at lt
    rw [addr]
    exact saved i lt
  · rw [words] at lt
    have base : (c.unwind (core.frames.length + 1)).mem.lsBase = core.mem.lsBase :=
      congrArg Memory.Shape.lsBase (p.trans last.plain).shape
    have here : (c.unwind (core.frames.length + 1)).x.localsAddr = entered.x.localsAddr := same.localsAddr
    have size : (c.unwind (core.frames.length + 1)).x.localsWords = entered.x.localsWords :=
      same.localsWords
    have top : (c.unwind (core.frames.length + 1)).x.lsTop = entered.x.lsTop := same.lsTop
    rw [ends, last.localStack.get_leave some, here, size, base, top, lsTop, words, addr,
      if_pos (by omega), Nat.add_sub_cancel, Nat.add_sub_cancel_left]
    exact (last.stack h enters p).2 i lt
  · have left : (c.unwind core.frames.length).context = core.context.resumeAt entered.resets resumePc := by
      rw [ends, context_leave, last.resets]
      have deep : entered.context.frames ≠ [] := List.ne_nil_of_length_pos (by
        show 0 < entered.frames.length
        omega)
      rw [same.leave deep]
      exact enters.leave _
    refine ⟨?_, congrArg (fun c : Context => c.x.pushed) left⟩
    rw [left]
    exact ⟨rfl, rfl, rfl, rfl, rfl, rfl⟩

end Core

/-- An idle VM with one progs has its local stack in order. -/
lemma Sys.Reachable.localStack {F : FloatOps} {s : Sys} (r : s.Reachable F) (idle : s.stack = [])
    (one : s.vm.core.progs.length = 1) : s.vm.core.LocalStack := by
  have context := (r.idle idle).context
  have frames : s.vm.core.frames = [] := congrArg Context.frames context
  have lsTop : s.vm.core.x.lsTop = 0 := congrArg (fun c : Context => c.x.lsTop) context
  have pushed : s.vm.core.x.pushed = 0 := congrArg (fun c : Context => c.x.pushed) context
  have words : s.vm.core.x.localsWords = 0 := congrArg (fun c : Context => c.x.localsWords) context
  have addr : s.vm.core.x.localsAddr = 0 := congrArg (fun c : Context => c.x.localsAddr) context
  refine ⟨r.blocks, r.base.layout.mem.small, one, ?_, ?_, ?_, ?_⟩
  · rw [addr, words]
    exact ⟨Nat.zero_le _, .inl (Nat.zero_le _)⟩
  · rw [frames]
    exact fun _ mem => absurd mem List.not_mem_nil
  · rw [frames]
    trivial
  · rw [lsTop, pushed]
    exact Nat.zero_le _

/-- In a VM with one progs, however functions are entered and left, words are pushed and memory
elsewhere is written: the stack never exceeds its words, and while a function runs it preserves what
its callers have there and what it saved. -/
theorem localStack_preserved {F : FloatOps} {s : Sys} (r : s.Reachable F) (idle : s.stack = [])
    (one : s.vm.core.progs.length = 1) {core : Core}
    (run : Relation.ReflTransGen (Core.StackStep F) s.vm.core core) :
    core.x.lsTop + core.x.pushed ≤ core.mem.lsWords ∧
      ∀ (prnum index resumePc : Nat) (entered : Core),
        core.enter prnum index resumePc = (.ok (), entered) →
        ∀ now, Core.Inside F core.frames.length entered now → core.Preserves entered now := by
  have h : core.LocalStack := by
    induction run with
    | refl => exact r.localStack idle one
    | tail _ e ih => exact ih.step e
  exact ⟨h.top_le, fun prnum index resumePc entered e now i => i.preserves h e⟩

/-- A program whose only function has a local. -/
def Asm.oneLocal : Asm where
  statements := [⟨0, 0, 0, 0, none⟩, ⟨0, 0, 0, 0, none⟩]
  functions := [⟨0, 0, 0, 0, 0, 0, []⟩, ⟨1, 28, 1, 0, 0, 0, []⟩]
  globals := List.replicate 28 0 ++ [7]
  strings := [0]

/-- At a function with a local that calls itself. -/
theorem localStack_preserved_oneLocal : ∃ core entered now : Core,
    core.enter 0 1 0 = (.ok (), entered) ∧ entered.enter 0 1 0 = (.ok (), now) ∧
      core.x.lsTop + core.x.pushed ≤ core.mem.lsWords ∧ core.Preserves entered now := by
  have test : (Asm.oneLocal.boot .none .menu).any (fun vm =>
      decide (vm.core.progs.length = 1) && (vm.core.enter 0 1 0).1.isOk &&
        ((vm.core.enter 0 1 0).2.enter 0 1 0).1.isOk) = true := by
    decide +kernel
  obtain ⟨vm, boot, test⟩ := (Option.any_eq_true _ _).mp test
  simp only [Bool.and_eq_true, decide_eq_true_eq] at test
  obtain ⟨⟨one, first⟩, second⟩ := test
  have succeeds {core : Core} (ok : (core.enter 0 1 0).1.isOk = true) :
      core.enter 0 1 0 = (.ok (), (core.enter 0 1 0).2) := by
    rcases e : core.enter 0 1 0 with ⟨_ | _, core'⟩
    · rw [e] at ok
      cases ok
    · rfl
  have entered := succeeds first
  have again := succeeds second
  have reachable : vm.start.Reachable .onZero := reachable_start boot
  have start : Relation.ReflTransGen (Core.StackStep .onZero) vm.start.vm.core vm.core := .refl
  obtain ⟨top, preserves⟩ := localStack_preserved reachable rfl one start
  refine ⟨vm.core, _, _, entered, again, top, preserves 0 1 0 _ entered _ (.step .here (.enter again) ?_)⟩
  obtain ⟨ps, f, enters⟩ := Core.enters entered
  obtain ⟨ps', f', enters'⟩ := Core.enters again
  rw [enters'.frames, enters.frames, List.length_cons, List.length_cons]
  omega

end Qcvm

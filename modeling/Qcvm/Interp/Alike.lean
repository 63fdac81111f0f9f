import Qcvm.Interp.Placed

/-!
# Cores that differ in the stored `pc`

The loop works on a copy of `pc`, which it stores to the core only where something reads it there,
and the traced flag tells nothing but the loop itself that a statement was reported. Cores that
differ in these two answer every operation alike (`alike_handle`), so loops that are at such cores
go on alike, and stop with cores that differ in the flag at most (`alike_execute`).
-/

namespace Qcvm

open Lib

namespace Core

/-- The core with another traced flag. -/
def flagged (core : Core) (traced : Bool) : Core := { core with traced := traced }

/-- Cores that differ in the traced flag at most, as `T` allows. -/
def Twin (T : Bool → Bool → Prop) (core core' : Core) : Prop :=
  ∃ traced, T core.traced traced ∧ core' = core.flagged traced

/-- Cores that differ in the stored `pc` too. -/
def Alike (T : Bool → Bool → Prop) (core core' : Core) : Prop :=
  ∃ pc traced, T core.traced traced ∧ core' = (core.markPc pc).flagged traced

variable {T : Bool → Bool → Prop} {core core' : Core}

/-- A core is its own twin. -/
lemma Twin.refl (core : Core) : core.Twin Eq core := ⟨core.traced, rfl, rfl⟩

/-- Twins are alike. -/
lemma Twin.alike (h : core.Twin T core') : core.Alike T core' := by
  obtain ⟨traced, flag, rfl⟩ := h
  exact ⟨core.x.pc, traced, flag, rfl⟩

/-- Likeness is transitive. -/
lemma Alike.trans {core'' : Core} (h : core.Alike Eq core') (h' : core'.Alike Eq core'') :
    core.Alike Eq core'' := by
  obtain ⟨_, traced, flag, rfl⟩ := h
  obtain ⟨pc, traced', flag', rfl⟩ := h'
  exact ⟨pc, traced', flag.trans flag', rfl⟩

/-- What stores the `pc` leaves no difference in it. -/
lemma Alike.markPc (h : core.Alike T core') (pc : Nat) :
    (core.markPc pc).Twin T (core'.markPc pc) := by
  obtain ⟨_, traced, flag, rfl⟩ := h
  exact ⟨traced, flag, rfl⟩

/-- Twins with related flags are twins. -/
lemma Twin.flagged (h : core.Twin T core') {traced traced' : Bool} (flag : T traced traced') :
    (core.flagged traced).Twin T (core'.flagged traced') := by
  obtain ⟨_, _, rfl⟩ := h
  exact ⟨traced', flag, rfl⟩

/-! ## Nothing but the loop touches the flag -/

section Flag

variable (core : Core) (traced : Bool)

/-- A warning does not read the traced flag. -/
lemma warn_flagged (kind : WarningKind) :
    (core.flagged traced).warn kind = (core.warn kind).flagged traced := by
  unfold warn flagged
  dsimp only
  split <;> rfl

/-- The warning of a bad field access does not read the traced flag. -/
lemma badFieldAccess_flagged (e f : Word) :
    (core.flagged traced).badFieldAccess e f = (core.badFieldAccess e f).flagged traced := by
  unfold badFieldAccess
  split
  next le =>
    rw [if_pos (show e.toNat ≥ core.mem.numEdicts from le)]
    exact core.warn_flagged traced _
  next lt =>
    rw [if_neg (show ¬ e.toNat ≥ core.mem.numEdicts from lt)]
    exact core.warn_flagged traced _

/-- A store to a field does not read the traced flag. -/
lemma storeField_flagged (e f : Word) (vs : List Word) :
    (core.flagged traced).storeField e f vs = (core.storeField e f vs).flagged traced := by
  unfold storeField
  rw [show (core.flagged traced).mem = core.mem from rfl]
  split
  next => exact core.warn_flagged traced _
  next =>
    split
    next => exact core.warn_flagged traced _
    next =>
      split
      next => exact core.warn_flagged traced _
      next => rfl

/-- Reading a string does not read the traced flag. -/
lemma strOrWarn_flagged (r : Word) : (core.flagged traced).strOrWarn r
    = ((core.strOrWarn r).1, (core.strOrWarn r).2.flagged traced) := by
  unfold strOrWarn
  rw [show (core.flagged traced).strBytes r = core.strBytes r from rfl]
  cases core.strBytes r with
  | none => exact congrArg (Prod.mk _) (core.warn_flagged traced _)
  | some text => rfl

/-- A test of strings for equality does not read the traced flag. -/
lemma stringsEqual_flagged (a b : Word) : (core.flagged traced).stringsEqual a b
    = ((core.stringsEqual a b).1, (core.stringsEqual a b).2.flagged traced) := by
  unfold stringsEqual
  split
  next => rfl
  next =>
    split
    next => simp only [strOrWarn_flagged]
    next =>
      simp only [strOrWarn_flagged]
      rfl

/-- A comparison of strings does not read the traced flag. -/
lemma stringCompare_flagged (F : FloatOps) (ne : Bool) (a b : Word) :
    (core.flagged traced).stringCompare F ne a b
      = ((core.stringCompare F ne a b).1, (core.stringCompare F ne a b).2.flagged traced) := by
  unfold stringCompare
  rw [stringsEqual_flagged]
  generalize core.stringsEqual a b = r
  obtain ⟨eq, core⟩ := r
  dsimp only
  rw [show (core.flagged traced).config = core.config from rfl]
  split
  next => rfl
  next => split <;> rfl

/-- A store through a pointer does not read the traced flag. -/
lemma ptrWrite_flagged (base offset : Word) (bytes : List Byte) :
    (core.flagged traced).ptrWrite base offset bytes
      = ((core.ptrWrite base offset bytes).1,
        (core.ptrWrite base offset bytes).2.flagged traced) := by
  have slow (addr : Word) (err : WriteError) :
      (core.flagged traced).ptrWriteSlow base offset addr bytes err
        = ((core.ptrWriteSlow base offset addr bytes err).1,
          (core.ptrWriteSlow base offset addr bytes err).2.flagged traced) := by
    unfold ptrWriteSlow
    rw [show (core.flagged traced).strings = core.strings from rfl]
    split
    next => rfl
    next =>
      split
      next =>
        dsimp only
        cases core.strings.tempRawMut (base &&& indexMask).toNat (offset.toNat + bytes.length) with
        | none => rfl
        | some found => dsimp only; split <;> rfl
      next => split <;> rfl
  unfold ptrWrite
  rw [show (core.flagged traced).mem = core.mem from rfl]
  dsimp only
  cases core.mem.write (base + offset) bytes with
  | ok mem => rfl
  | error err =>
    cases err with
    | guarded e => exact congrArg (Prod.mk _) (core.warn_flagged traced _)
    | null => exact slow _ _
    | invalid p => exact slow _ _

/-- A compound store does not read the traced flag. -/
lemma compoundPointerStore_flagged (F : FloatOps) (op : PointerStore) (oa ob oc : Nat) :
    (core.flagged traced).compoundPointerStore F op oa ob oc
      = ((core.compoundPointerStore F op oa ob oc).1,
        (core.compoundPointerStore F op oa ob oc).2.flagged traced) := by
  unfold compoundPointerStore
  rw [show (core.flagged traced).mem = core.mem from rfl]
  dsimp only
  cases core.mem.checkWrite (core.mem.g ob) op.len with
  | ok loc => rfl
  | error err =>
    cases err with
    | guarded e => exact congrArg (Prod.mk _) (core.warn_flagged traced _)
    | null => rfl
    | invalid p => rfl

/-- Switching to other progs does not read the traced flag. -/
lemma switchIn_flagged (src dst : Nat) :
    (core.flagged traced).switchIn src dst = (core.switchIn src dst).flagged traced := by
  unfold switchIn
  rw [show (core.flagged traced).progs = core.progs from rfl]
  split <;> rfl

/-- Switching back does not read the traced flag. -/
lemma switchOut_flagged (src dst : Nat) :
    (core.flagged traced).switchOut src dst = (core.switchOut src dst).flagged traced := by
  unfold switchOut
  rw [show (core.flagged traced).progs = core.progs from rfl]
  split <;> rfl

/-- Entering a function does not read the traced flag. -/
lemma enter_flagged (prnum index resumePc : Nat) : (core.flagged traced).enter prnum index resumePc
    = ((core.enter prnum index resumePc).1,
      (core.enter prnum index resumePc).2.flagged traced) := by
  unfold enter
  rw [show (core.flagged traced).frames = core.frames from rfl,
    show (core.flagged traced).config = core.config from rfl]
  split
  next => rfl
  next =>
    have switched : (if prnum ≠ (core.flagged traced).x.prnum ∧
          (core.flagged traced).progs.length > 1
        then (core.flagged traced).switchIn (core.flagged traced).x.prnum prnum
        else core.flagged traced)
        = (if prnum ≠ core.x.prnum ∧ core.progs.length > 1 then core.switchIn core.x.prnum prnum
          else core).flagged traced := by
      rw [show (core.flagged traced).x = core.x from rfl,
        show (core.flagged traced).progs = core.progs from rfl]
      split
      next => exact core.switchIn_flagged traced _ _
      next => rfl
    dsimp only
    rw [switched]
    generalize (if prnum ≠ core.x.prnum ∧ core.progs.length > 1 then
      core.switchIn core.x.prnum prnum else core) = entering
    rw [show (entering.flagged traced).lookupFunc prnum index
      = entering.lookupFunc prnum index from rfl]
    cases entering.lookupFunc prnum index with
    | none => rfl
    | some found =>
      obtain ⟨ps, f⟩ := found
      dsimp only
      rw [show (entering.flagged traced).saveLocals f = entering.saveLocals f from rfl]
      cases entering.saveLocals f with
      | none => rfl
      | some saved => rfl

/-- Leaving a function does not read the traced flag. -/
lemma leave_flagged : (core.flagged traced).leave = core.leave.flagged traced := by
  unfold leave
  dsimp only
  rw [show (core.flagged traced).restoreLocals = core.restoreLocals.flagged traced from rfl]
  generalize core.restoreLocals = core'
  rw [show (core'.flagged traced).frames = core'.frames from rfl]
  cases core'.frames with
  | nil => rfl
  | cons frame frames =>
    dsimp only
    rw [show (core.flagged traced).x = core.x from rfl]
    split
    next =>
      exact switchOut_flagged
        { core' with frames := frames, x := core'.resumeExec frame core'.x.lsTop } traced _ _
    next => rfl

end Flag

/-- Twins enter a function alike, and remain twins. -/
lemma Twin.enter (h : core.Twin T core') (prnum index resumePc : Nat) :
    (core'.enter prnum index resumePc).1 = (core.enter prnum index resumePc).1 ∧
      (core.enter prnum index resumePc).2.Twin T (core'.enter prnum index resumePc).2 := by
  obtain ⟨traced, flag, rfl⟩ := h
  have kept : (core.enter prnum index resumePc).2.traced = core.traced :=
    congrArg (fun r : Except ErrorKind Unit × Core => r.2.traced)
      (core.enter_flagged core.traced prnum index resumePc)
  rw [enter_flagged]
  exact ⟨rfl, traced, kept.symm ▸ flag, rfl⟩

/-- Twins leave a function as twins. -/
lemma Twin.leave (h : core.Twin T core') : core.leave.Twin T core'.leave := by
  obtain ⟨traced, flag, rfl⟩ := h
  have same : core.leave = core.leave.flagged core.traced := core.leave_flagged core.traced
  have kept : core.leave.traced = core.traced := by
    rw [same]
    rfl
  exact ⟨traced, kept.symm ▸ flag, core.leave_flagged traced⟩

end Core

/-- What a statement comes to, on alike cores: where the loop takes the `pc` from the core, it is
the same. -/
structure AlikePaid (T : Bool → Bool → Prop) (r r' : Except ErrorKind After × Core) : Prop where
  value : r'.1 = r.1
  core : r.2.Alike T r'.2
  reload : r.1 = .ok .reload → r.2.Twin T r'.2
  returned : r.1 = .ok .returned → r.2.Twin T r'.2

namespace Site

variable {site : Site} {T : Bool → Bool → Prop} {core core' : Core}

/-- An operation does the same on a core with another stored `pc` and another flag. -/
lemma handle_marked (F : FloatOps) (f : Micro) (core : Core) (pc : Nat) (traced : Bool) : ∃ pc',
    site.handle F f ((core.markPc pc).flagged traced)
      = ((site.handle F f core).1, ((site.handle F f core).2.markPc pc').flagged traced) := by
  -- Operations of the core itself store the `pc` of the loop first.
  have marked : ((core.markPc pc).flagged traced).markPc site.pc
      = (core.markPc site.pc).flagged traced := rfl
  have mem : ((core.markPc pc).flagged traced).mem = core.mem := rfl
  cases f with
  | get | memGet | getGlobal | getRef | look | set | memSet | setGlobal | setArgc | setPushed
  | setSwitch => exact ⟨pc, rfl⟩
  | rand15 =>
    have drawn (r : Word × Rng) :
        ((r.1, { (core.markPc pc).flagged traced with rng := r.2 }) : Word × Core)
          = (r.1, ({ core with rng := r.2 }.markPc pc).flagged traced) := rfl
    exact ⟨pc, drawn core.rng.rand15⟩
  | warn kind => exact ⟨_, congrArg (Prod.mk _) ((core.markPc site.pc).warn_flagged traced kind)⟩
  | badFieldAccess e f =>
    exact ⟨_, congrArg (Prod.mk _) ((core.markPc site.pc).badFieldAccess_flagged traced e f)⟩
  | storeField words =>
    simp only [handle, storeField, mem, marked]
    cases core.mem.storeFieldView (site.view.g core.mem.s site.st.a)
        (site.view.g core.mem.s site.st.b) (site.view.getWords core.mem.s site.st.c words) with
    | some mem => exact ⟨pc, rfl⟩
    | none =>
      exact ⟨_, congrArg (Prod.mk _) ((core.markPc site.pc).storeField_flagged traced _ _ _)⟩
  | storeThrough base offset bytes =>
    simp only [handle, storeThrough, mem, marked]
    cases core.mem.ptrWriteView site.view (base + offset) bytes with
    | some mem => exact ⟨pc, rfl⟩
    | none => exact ⟨_, (core.markPc site.pc).ptrWrite_flagged traced _ _ _⟩
  | ptrWrite base offset bytes => exact ⟨_, (core.markPc site.pc).ptrWrite_flagged traced _ _ _⟩
  | loadThrough words base offset =>
    simp only [handle, loadThrough, mem, marked]
    cases core.mem.ptrReadView site.view (base + offset) (4 * words) with
    | some bytes => exact ⟨pc, rfl⟩
    | none =>
      rw [show ((core.markPc site.pc).flagged traced).ptrRead (4 * words) base offset
        = (core.markPc site.pc).ptrRead (4 * words) base offset from rfl]
      cases (core.markPc site.pc).ptrRead (4 * words) base offset with
      | ok bytes => exact ⟨site.pc, rfl⟩
      | error kind => exact ⟨site.pc, rfl⟩
  | ptrRead n base offset => exact ⟨site.pc, rfl⟩
  | compound op =>
    simp only [handle, compound, mem, marked]
    cases core.mem.compoundStoreView F site.view op (site.view.g core.mem.s site.st.b)
        (site.view.g core.mem.s site.st.a) with
    | some stored => exact ⟨pc, rfl⟩
    | none => exact ⟨_, (core.markPc site.pc).compoundPointerStore_flagged traced _ _ _ _ _⟩
  | pointerStore op =>
    exact ⟨_, (core.markPc site.pc).compoundPointerStore_flagged traced _ _ _ _ _⟩
  | strOrWarn r => exact ⟨_, (core.markPc site.pc).strOrWarn_flagged traced r⟩
  | stringsEqual a b => exact ⟨_, (core.markPc site.pc).stringsEqual_flagged traced a b⟩
  | stringCompare ne a b => exact ⟨_, (core.markPc site.pc).stringCompare_flagged traced F ne a b⟩
  | enter prnum index resumePc => exact ⟨_, (core.markPc site.pc).enter_flagged traced _ _ _⟩
  | leave =>
    simp only [handle, marked, Core.leave_flagged]
    exact ⟨_, rfl⟩

/-- An access of a statement keeps the traced flag. -/
lemma traced_handle (F : FloatOps) (f : Micro) (core : Core) :
    (site.handle F f core).2.traced = core.traced := by
  obtain ⟨pc, e⟩ := site.handle_marked F f core core.x.pc core.traced
  exact congrArg (fun r : f.Answer × Core => r.2.traced) e

/-- Alike cores answer an operation alike. -/
lemma alike_handle (F : FloatOps) (f : Micro) (h : core.Alike T core') :
    (site.handle F f core).1 = (site.handle F f core').1 ∧
      (site.handle F f core).2.Alike T (site.handle F f core').2 := by
  obtain ⟨pc, traced, flag, rfl⟩ := h
  obtain ⟨pc', e⟩ := site.handle_marked F f core pc traced
  rw [e]
  exact ⟨rfl, pc', traced, (site.traced_handle F f core).symm ▸ flag, rfl⟩

/-- So they run a program alike. -/
lemma alike_run (F : FloatOps) {α : Type} (p : Arm α) (h : core.Alike T core') :
    (p.run (site.handle F) core).1 = (p.run (site.handle F) core').1 ∧
      (p.run (site.handle F) core).2.Alike T (p.run (site.handle F) core').2 :=
  Prog.run_related p.all_true (fun f _ _ _ h => site.alike_handle F f h) h

/-- What a call does once its arguments are passed: `fv` is the function it calls. -/
def called (site : Site) (fv : Word) (core : Core) : Except ErrorKind After × Core :=
  let core := { core with argc := site.st.op.callArgc.getD 0 }
  let target : FuncRef := ⟨fv⟩
  match core.callee target with
  | some .qc =>
    let r := (core.markPc site.pc).enter target.progs target.index (wrappingAdd site.pc 1)
    (r.1.map fun _ => .reload, r.2)
  | some (.builtin slot) => (.ok (.builtin slot target), core)
  | some .null => (.error .nullFunction, core)
  | some .missing => (.error (core.missingBuiltin target), core)
  | some .invalid | none => (.error (.invalidFunction target), core)

/-- A call passes its arguments, then it calls. -/
lemma run_dispatch (F : FloatOps) : (Arm.dispatch site).run (site.handle F) core =
    match (Arm.passArguments site.st.op).run (site.handle F) core with
    | (.ok _, core) => site.called (site.view.g core.mem.s site.st.a) core
    | (.error kind, core) => (.error kind, core) := by
  unfold Arm.dispatch
  rw [Prog.bind_eq, Prog.run_bind]
  obtain ⟨_ | _, core'⟩ := (Arm.passArguments site.st.op).run (site.handle F) core
  · rfl
  · simp only [Arm.get, Arm.look, Prog.bind_eq, Prog.call_bind, Prog.pure_bind, Prog.run_call]
    dsimp only [handle]
    show _ = site.called (site.view.g core'.mem.s (site.offset .a 0)) core'
    generalize site.view.g core'.mem.s (site.offset .a 0) = fv
    unfold called
    generalize { core' with argc := site.st.op.callArgc.getD 0 } = ready
    dsimp only
    rw [show ready.hideLoop.callee ⟨fv⟩ = ready.callee ⟨fv⟩ from rfl]
    cases ready.callee ⟨fv⟩ with
    | none => rfl
    | some callee =>
      cases callee with
      | qc =>
        dsimp only [Prog.run_call, handle]
        generalize Core.enter _ _ _ _ = r
        obtain ⟨_ | _, entered⟩ := r <;> rfl
      | _ => rfl

/-- Alike cores call a function alike. -/
lemma alike_called (fv : Word) (h : core.Alike T core') :
    AlikePaid T (site.called fv core) (site.called fv core') := by
  obtain ⟨pc, traced, flag, rfl⟩ := h
  unfold called
  dsimp only
  have ready : { (core.markPc pc).flagged traced with argc := site.st.op.callArgc.getD 0 }
      = ({ core with argc := site.st.op.callArgc.getD 0 }.markPc pc).flagged traced := rfl
  rw [ready]
  have flag : T { core with argc := site.st.op.callArgc.getD 0 }.traced traced := flag
  generalize { core with argc := site.st.op.callArgc.getD 0 } = core at flag
  rw [show ((core.markPc pc).flagged traced).callee ⟨fv⟩ = core.callee ⟨fv⟩ from rfl]
  have other {result : Except ErrorKind After} (reload : result ≠ .ok .reload)
      (returned : result ≠ .ok .returned) :
      AlikePaid T (result, core) (result, (core.markPc pc).flagged traced) :=
    ⟨rfl, ⟨pc, traced, flag, rfl⟩, fun e => absurd e reload, fun e => absurd e returned⟩
  cases core.callee ⟨fv⟩ with
  | none => exact other nofun nofun
  | some callee =>
    cases callee with
    | qc =>
      have twin : (core.markPc site.pc).Twin T (((core.markPc pc).flagged traced).markPc site.pc) :=
        ⟨traced, flag, rfl⟩
      obtain ⟨value, entered⟩ := twin.enter (FuncRef.progs ⟨fv⟩) (FuncRef.index ⟨fv⟩)
        (wrappingAdd site.pc 1)
      dsimp only
      rw [value]
      exact ⟨rfl, entered.alike, fun _ => entered, fun _ => entered⟩
    | builtin slot => exact other nofun nofun
    | null => exact other nofun nofun
    | missing => exact other nofun nofun
    | invalid => exact other nofun nofun

/-- A call, on alike cores. -/
lemma alike_dispatch (F : FloatOps) {V : View} (passes : ∀ r r' : Except ErrorKind Unit × Core,
      r = (Arm.passArguments site.st.op).run (site.handle F) core →
      r' = (Arm.passArguments site.st.op).run ({ site with view := V }.handle F) core' →
      r.1 = r'.1 ∧ r.2.Alike T r'.2 ∧ site.view.g r.2.mem.s site.st.a = V.g r'.2.mem.s site.st.a) :
    AlikePaid T ((Arm.dispatch site).run (site.handle F) core)
      ((Arm.dispatch { site with view := V }).run ({ site with view := V }.handle F) core') := by
  rw [run_dispatch, run_dispatch]
  obtain ⟨value, alike, fv⟩ := passes _ _ rfl rfl
  generalize (Arm.passArguments site.st.op).run (site.handle F) core = r at value alike fv ⊢
  generalize (Arm.passArguments site.st.op).run ({ site with view := V }.handle F) core' = r'
    at value alike fv ⊢
  obtain ⟨result, core⟩ := r
  obtain ⟨result', core'⟩ := r'
  cases value
  cases result with
  | error kind => exact ⟨rfl, alike, nofun, nofun⟩
  | ok _ =>
    dsimp only at fv ⊢
    rw [← fv]
    exact site.alike_called _ alike

/-- A return, on alike cores. -/
lemma alike_leaveFunction (F : FloatOps) {V : View} {exitDepth : Nat}
    (copies : ∀ r r' : Except ErrorKind Unit × Core,
      r = (Arm.copyToGlobals .a ofsReturn).run (site.handle F) core →
      r' = (Arm.copyToGlobals .a ofsReturn).run ({ site with view := V }.handle F) core' →
      r.1 = r'.1 ∧ r.2.Alike T r'.2) :
    AlikePaid T ((Arm.leaveFunction exitDepth).run (site.handle F) core)
      ((Arm.leaveFunction exitDepth).run ({ site with view := V }.handle F) core') := by
  obtain ⟨value, alike⟩ := copies _ _ rfl rfl
  unfold Arm.leaveFunction
  rw [Prog.bind_eq, Prog.run_bind, Prog.run_bind]
  generalize (Arm.copyToGlobals .a ofsReturn).run (site.handle F) core = r at value alike ⊢
  generalize (Arm.copyToGlobals .a ofsReturn).run ({ site with view := V }.handle F) core' = r'
    at value alike ⊢
  obtain ⟨result, core⟩ := r
  obtain ⟨result', core'⟩ := r'
  cases value
  cases result with
  | error kind => exact ⟨rfl, alike, nofun, nofun⟩
  | ok _ =>
    obtain ⟨traced, flag, e⟩ := (alike.markPc site.pc).leave
    change AlikePaid T
      (.ok (if (core.markPc site.pc).leave.frames.length ≤ exitDepth then .returned else .reload),
        (core.markPc site.pc).leave)
      (.ok (if (core'.markPc site.pc).leave.frames.length ≤ exitDepth then .returned else .reload),
        (core'.markPc site.pc).leave)
    dsimp only at e flag
    rw [e]
    exact ⟨rfl, Core.Twin.alike ⟨traced, flag, rfl⟩, fun _ => ⟨traced, flag, rfl⟩,
      fun _ => ⟨traced, flag, rfl⟩⟩

end Site

/-! ## The loop -/

/-- Loops at alike cores. -/
def At.Alike (T : Bool → Bool → Prop) (a a' : At) : Prop :=
  ∃ core', a.core.Alike T core' ∧ a' = { a with core := core' }

/-- Loops that stopped with cores that differ in the traced flag at most. -/
def Stop.Twin (T : Bool → Bool → Prop) (stop stop' : Stop) : Prop :=
  ∃ core', stop.core.Twin T core' ∧ stop' = { stop with core := core' }

/-- The loops are at alike cores, or stopped so. -/
def AlikeAt (T : Bool → Bool → Prop) : Status At Stop → Status At Stop → Prop :=
  Status.Related (At.Alike T) (Stop.Twin T)

section Loop

variable {T : Bool → Bool → Prop} {F : FloatOps} {V V' : View} {trace trace' : Bool}
variable {exitDepth : Nat} {core core' : Core}

/-- Twins reload the registers alike. -/
lemma alike_reload (h : core.Twin T core') (budget cachedPr : Nat) (cached : Arr Stmt) :
    AlikeAt T (reload V core budget cachedPr cached) (reload V core' budget cachedPr cached) := by
  obtain ⟨traced, flag, rfl⟩ := h
  unfold reload
  rw [show (core.flagged traced).x = core.x from rfl,
    show (core.flagged traced).progs = core.progs from rfl,
    show (core.flagged traced).mem = core.mem from rfl]
  dsimp only
  split
  next => exact ⟨_, ⟨traced, flag, rfl⟩, rfl⟩
  next ps _ =>
    generalize (if cachedPr ≠ core.x.prnum then ps.code else cached) = code
    split
    next => exact ⟨_, ⟨traced, flag, rfl⟩, rfl⟩
    next =>
      split
      next => exact ⟨_, ⟨traced, flag, rfl⟩, rfl⟩
      next => exact ⟨_, Core.Twin.alike ⟨traced, flag, rfl⟩, rfl⟩

/-- Twins start a run alike. -/
lemma alike_start (h : core.Twin T core') (budget : Nat) :
    AlikeAt T (start V core budget) (start V core' budget) := by
  obtain ⟨traced, flag, rfl⟩ := h
  unfold start
  rw [show (core.flagged traced).progs = core.progs from rfl]
  split
  next => exact ⟨_, ⟨traced, flag, rfl⟩, rfl⟩
  next => exact alike_reload ⟨traced, flag, rfl⟩ budget _ _

/-- After statements that come to the same, alike loops go on alike. -/
lemma alike_proceed (a : At) (core' : Core) {r r' : Except ErrorKind After × Core}
    (paid : AlikePaid T r r') (reloads : r.1 = .ok .reload → AlikeAt T
      (reload V r.2 a.budget a.loc.prnum a.loc.code)
      (reload V' r'.2 a.budget a.loc.prnum a.loc.code)) :
    AlikeAt T (proceed V a r) (proceed V' { a with core := core' } r') := by
  obtain ⟨value, alike, -, returned⟩ := paid
  unfold proceed
  rw [value]
  cases e : r.1 with
  | error kind => exact ⟨_, alike.markPc a.pc, rfl⟩
  | ok after =>
    cases after with
    | next => exact ⟨_, alike, rfl⟩
    | goto target => exact ⟨_, alike, rfl⟩
    | reload => exact reloads e
    | returned => exact ⟨_, returned e, rfl⟩
    | builtin slot func => exact ⟨_, alike.markPc _, rfl⟩

/-- Alike loops are charged alike, also when the statement is not run. -/
lemma alike_charge {a : At} (alike : a.core.Alike T core') (flag : T trace trace') {st : Stmt}
    {after : Arm After} (paid : AlikePaid T (after.run ((a.site V st).handle F) a.core)
      (after.run ((a.site V' st).handle F) core'))
    (reloads : ∀ r r', r = after.run ((a.site V st).handle F) a.core →
      r' = after.run ((a.site V' st).handle F) core' → r.1 = .ok .reload → ∀ budget, AlikeAt T
        (reload V r.2 budget a.loc.prnum a.loc.code)
        (reload V' r'.2 budget a.loc.prnum a.loc.code)) :
    AlikeAt T (charge F V trace a st after)
      (charge F V' trace' { a with core := core' } st after) := by
  unfold charge
  dsimp only
  split
  next => exact ⟨_, (alike.markPc a.pc).flagged flag, rfl⟩
  next =>
    exact alike_proceed ⟨a.core, a.loc, a.pc, a.budget - 1⟩ core' paid
      fun reloaded => reloads _ _ rfl rfl reloaded _

/-! ## The same view -/

/-- What is left of a statement, on alike cores. -/
lemma alike_paid {site : Site} {after : Arm After} (charged : site.Charged exitDepth after)
    (h : core.Alike T core') :
    AlikePaid T (after.run (site.handle F) core) (after.run (site.handle F) core') := by
  cases charged with
  | next => exact ⟨rfl, h, nofun, nofun⟩
  | goto => exact ⟨rfl, h, nofun, nofun⟩
  | leave =>
    refine @Site.alike_leaveFunction site T core core' F site.view exitDepth ?_
    rintro r r' rfl rfl
    exact site.alike_run F _ h
  | dispatch =>
    refine @Site.alike_dispatch site T core core' F site.view ?_
    rintro r r' rfl rfl
    obtain ⟨value, alike⟩ := site.alike_run F (Arm.passArguments site.st.op) h
    refine ⟨value, alike, ?_⟩
    obtain ⟨_, _, _, e⟩ := alike
    show _ = site.view.g
      ((Arm.passArguments site.st.op).run (site.handle F) core').2.mem.s site.st.a
    rw [e]
    rfl

/-- The charge and what follows, on alike cores. -/
lemma alike_charged {a : At} {st : Stmt} {after : Arm After} (h : a.core.Alike T core')
    (flag : T trace trace') (charged : (a.site V st).Charged exitDepth after) :
    AlikeAt T (charge F V trace a st after)
      (charge F V trace' { a with core := core' } st after) := by
  have paid := @alike_paid T F exitDepth a.core core' (a.site V st) after charged h
  refine alike_charge h flag paid ?_
  rintro r r' rfl rfl reloaded budget
  exact alike_reload (paid.reload reloaded) budget _ _

/-- Loops at alike cores go on alike. -/
lemma alike_execute {a : At} (h : a.core.Alike T core') (flag : T trace trace') :
    AlikeAt T (execute F V trace exitDepth a)
      (execute F V trace' exitDepth { a with core := core' }) := by
  unfold execute
  dsimp only
  split
  next => exact ⟨_, h.markPc a.pc, rfl⟩
  next st _ =>
    obtain ⟨value, alike⟩ := (a.site V st).alike_run F (statement F (a.site V st) exitDepth) h
    have ends := fun v => Prog.run_value (h := (a.site V st).handle F) (s := a.core) (v := v)
      (@placed_statement F (a.site V st) exitDepth)
    rw [show At.site { a with core := core' } V st = a.site V st from rfl, ← value]
    generalize (statement F (a.site V st) exitDepth).run ((a.site V st).handle F) a.core = r
      at alike ends ⊢
    cases e : r.1 with
    | error kind => exact ⟨_, alike.markPc a.pc, rfl⟩
    | ok outcome =>
      cases outcome with
      | next => exact ⟨_, alike, rfl⟩
      | stateOp op => exact ⟨_, alike.markPc _, rfl⟩
      | charge after => exact alike_charged (a := { a with core := r.2 }) alike flag (ends _ e).2

end Loop

end Qcvm

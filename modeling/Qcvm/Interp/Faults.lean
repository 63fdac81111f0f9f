import Qcvm.Interp.Alike
import Qcvm.Vm.Context
import Qcvm.Vm.StringTable
import Qcvm.Lib.Fails

/-!
# What statements fault with

Every opcode raises errors of its own only (`Op.raises`). A statement that faults has done nothing
yet: all of its checks come before its effects, so the core is the one before the statement with the
loop's `pc` stored (`fails_statement`). A call alone has passed its arguments by then, and may have
switched progs (`fails_dispatch`).
-/

namespace Qcvm

open Lib

namespace Op

/-- The opcodes that index globals at run time. -/
def indexesGlobals : Op → Bool
  | .fetchGblF | .fetchGblS | .fetchGblE | .fetchGblFnc | .fetchGblV | .loadAF | .loadAS | .loadAEnt
  | .loadAFld | .loadAFnc | .loadAI | .loadAV | .loadAI64 | .gLoadI | .gLoadF | .gLoadFld | .gLoadEnt
  | .gLoadS | .gLoadFnc | .gLoadV | .gStorePI | .gStorePF | .gStorePEnt | .gStorePFld | .gStorePS
  | .gStorePFnc | .gStorePV => true
  | _ => false

/-- The opcodes that load through a pointer. -/
def loadsThrough : Op → Bool
  | .loadPF | .loadPS | .loadPEnt | .loadPFld | .loadPFnc | .loadPI | .loadPV | .loadPI64 | .loadPC
  | .loadPU8 | .loadPI8 | .loadPU16 | .loadPI16 | .loadPItoF | .loadPFtoI => true
  | _ => false

/-- The opcodes that store through a pointer. -/
def storesThrough : Op → Bool
  | .storePF | .storePS | .storePEnt | .storePFld | .storePFnc | .storePI | .storePV | .storePI64
  | .storePIF | .storePFI | .storePC | .storePI8 | .storePI16 | .mulStorePF | .divStorePF
  | .addStorePF | .subStorePF | .mulStorePVF | .addStorePV | .subStorePV | .bitSetStorePF
  | .bitClrStorePF => true
  | _ => false

/-- Whether a statement of this opcode may raise an error. The others of `ErrorKind` come from
builtins, the host and the loop around the interpreter. -/
def raises (op : Op) : ErrorKind → Bool
  | .badOpcode which => which == op && (op == .unused || op == .pop || op == .bad)
  | .jumpOutOfRange => op == .jumpOutOfRange
  | .gAddress => op == .gAddress
  | .stringCaseRange => op == .caseRange
  | .boundCheck .. => op == .boundCheck
  | .pushedTooMuch => op == .push
  | .arrayIndex _ => op.indexesGlobals
  | .badPointerRead _ => op.loadsThrough
  | .badPointerWrite _ | .nullPointerWrite => op.storesThrough
  | .nullFunction | .invalidFunction _ | .builtinNotImplemented .. | .callDepth | .localStack =>
    op.callArgc.isSome
  | _ => false

end Op

namespace Core

variable {core core' : Core} {kind : ErrorKind}

/-- Only the last statement number stored counts. -/
@[simp] lemma markPc_markPc (core : Core) (a b : Nat) : (core.markPc a).markPc b = core.markPc b := rfl

/-- A read that fails failed at a pointer. -/
lemma ptrRead_error {n : Nat} {base offset : Word} (e : core.ptrRead n base offset = .error kind) :
    ∃ p, kind = .badPointerRead p := by
  unfold ptrRead at e
  split at e
  next => cases e
  next =>
    unfold ptrReadSlow at e
    split at e
    next => cases e
    next =>
      dsimp only at e
      split at e
      next =>
        cases e
        exact ⟨_, rfl⟩
      next => cases e

/-- A write that fails wrote nothing: a temp string that has grown is long enough. -/
lemma ptrWrite_error {base offset : Word} {bytes : List Byte}
    (e : core.ptrWrite base offset bytes = (.error kind, core')) :
    core' = core ∧ (kind = .nullPointerWrite ∨ ∃ p, kind = .badPointerWrite p) := by
  unfold ptrWrite at e
  dsimp only at e
  split at e
  next => cases e
  next => cases e
  next err _ _ =>
    unfold ptrWriteSlow at e
    split at e
    next => cases e
    next =>
      split at e
      next =>
        dsimp only at e
        split at e
        next =>
          cases e
          exact ⟨rfl, .inr ⟨_, rfl⟩⟩
        next data strings grown =>
          split at e
          next => cases e
          next short =>
            obtain ⟨before, -, -, long, -⟩ := Strings.tempRawMut_eq_some grown
            exact absurd long short
      next =>
        split at e
        next =>
          cases e
          exact ⟨rfl, .inl rfl⟩
        next =>
          cases e
          exact ⟨rfl, .inr ⟨_, rfl⟩⟩

/-- A compound store that fails changes nothing and raises one of the errors of a write. -/
lemma compoundPointerStore_error {F : FloatOps} {op : PointerStore} {oa ob oc : Nat}
    (e : core.compoundPointerStore F op oa ob oc = (.error kind, core')) :
    core' = core ∧ (kind = .nullPointerWrite ∨ ∃ p, kind = .badPointerWrite p) := by
  unfold compoundPointerStore at e
  dsimp only at e
  split at e
  next => cases e
  next => cases e
  next =>
    cases e
    exact ⟨rfl, .inl rfl⟩
  next =>
    cases e
    exact ⟨rfl, .inr ⟨_, rfl⟩⟩

/-- A call that enters no function says why, and switches progs only where there are others. -/
lemma enter_refuses {prnum index resumePc : Nat} {op : Op} (call : op.callArgc.isSome)
    (e : core.enter prnum index resumePc = (.error kind, core')) :
    op.raises kind = true ∧ (core.progs.length ≤ 1 → core' = core) := by
  unfold enter at e
  split at e
  next =>
    cases e
    exact ⟨call, fun _ => rfl⟩
  next =>
    have stays (alone : core.progs.length ≤ 1) : (if prnum ≠ core.x.prnum ∧ core.progs.length > 1 then
        core.switchIn core.x.prnum prnum else core) = core :=
      if_neg fun other => absurd other.2 (by omega)
    dsimp only at e
    split at e
    next =>
      cases e
      exact ⟨call, stays⟩
    next =>
      split at e
      next =>
        cases e
        exact ⟨call, stays⟩
      next => cases e

/-- The error of a call of a builtin that is not bound. -/
lemma raises_missingBuiltin {op : Op} (call : op.callArgc.isSome) (target : FuncRef) :
    op.raises (core.missingBuiltin target) = true := by
  unfold missingBuiltin
  dsimp only
  split <;> exact call

end Core

namespace Site

variable {F : FloatOps} {site : Site}

/-- The statement raised an error of its opcode and did nothing but store the loop's `pc`. -/
def Faults (site : Site) (core : Core) (kind : ErrorKind) (core' : Core) : Prop :=
  site.st.op.raises kind = true ∧ core'.markPc site.pc = core.markPc site.pc

/-- A statement that fails faults. -/
def Atomic (F : FloatOps) (site : Site) {α : Type} (p : Arm α) : Prop :=
  p.Fails (site.handle F) site.Faults

variable {α β : Type}

/-- An arm that starts with a read of a slot is atomic if the rest is. -/
lemma atomic_get (s : Slot) (k : Nat) {g : Word → Arm α} (rest : ∀ v, site.Atomic F (g v)) :
    site.Atomic F (Arm.get s k >>= g) :=
  Prog.fails_call (fun _ => rfl) rest

/-- An arm that starts with a read through memory is atomic if the rest is. -/
lemma atomic_memGet (s : Slot) (k : Nat) {g : Word → Arm α} (rest : ∀ v, site.Atomic F (g v)) :
    site.Atomic F (Arm.memGet s k >>= g) :=
  Prog.fails_call (fun _ => rfl) rest

/-- An arm that starts by looking at the core is atomic if the rest is. -/
lemma atomic_look {g : Core → Arm α} (rest : ∀ core, site.Atomic F (g core)) :
    site.Atomic F (Arm.look >>= g) :=
  Prog.fails_call (fun _ => rfl) rest

/-- A failure with an error of the opcode is atomic. -/
lemma atomic_fail {kind : ErrorKind} (own : site.st.op.raises kind = true) :
    site.Atomic F (.fail kind : Arm α) :=
  Prog.fails_fail fun _ => ⟨own, rfl⟩

/-- An atomic arm is atomic as a statement that falls through. -/
lemma Atomic.falls {p : Arm Unit} (h : site.Atomic F p) : site.Atomic F (Arm.falls p) :=
  Prog.Fails.bind h fun _ => trivial

/-! ## Pointers -/

/-- A failed store wrote nothing. -/
lemma faults_write {core core' : Core} {kind : ErrorKind} (stores : site.st.op.storesThrough = true)
    (e : core' = core.markPc site.pc ∧ (kind = .nullPointerWrite ∨ ∃ p, kind = .badPointerWrite p)) :
    site.Faults core kind core' := by
  obtain ⟨rfl, rfl | ⟨p, rfl⟩⟩ := e
  · exact ⟨stores, rfl⟩
  · exact ⟨stores, rfl⟩

/-- A store through a pointer is atomic. -/
lemma atomic_storeThrough (stores : site.st.op.storesThrough = true) (base offset : Word)
    (bytes : List Byte) : site.Atomic F (.call (.storeThrough base offset bytes) .ofExcept) := by
  refine Prog.fails_ofExcept (R := Micro.Answer) (f := .storeThrough base offset bytes) (k := id)
    fun core kind e => faults_write stores ?_
  have e : (site.storeThrough base offset bytes core).1 = .error kind := e
  show (site.storeThrough base offset bytes core).2 = _ ∧ _
  unfold storeThrough at e ⊢
  split at e
  next => cases e
  next => exact Core.ptrWrite_error (Prod.ext e rfl)

/-- The general store through a pointer is atomic. -/
lemma atomic_ptrWrite (stores : site.st.op.storesThrough = true) (base offset : Word)
    (bytes : List Byte) : site.Atomic F (.call (.ptrWrite base offset bytes) .ofExcept) :=
  Prog.fails_ofExcept (R := Micro.Answer) (f := .ptrWrite base offset bytes) (k := id)
    fun _ _ e => faults_write stores (Core.ptrWrite_error (Prod.ext e rfl))

/-- The general compound store is atomic. -/
lemma atomic_pointerStore (stores : site.st.op.storesThrough = true) (op : PointerStore) :
    site.Atomic F (.call (.pointerStore op) .ofExcept) :=
  Prog.fails_ofExcept (R := Micro.Answer) (f := .pointerStore op) (k := id)
    fun _ _ e => faults_write stores (Core.compoundPointerStore_error (Prod.ext e rfl))

/-- A compound store, inline or not, is atomic. -/
lemma atomic_compound (stores : site.st.op.storesThrough = true) (op : Compound) :
    site.Atomic F (.call (.compound op) .ofExcept) := by
  refine Prog.fails_ofExcept (R := Micro.Answer) (f := .compound op) (k := id)
    fun core kind e => faults_write stores ?_
  have e : (site.compound F op core).1 = .error kind := e
  show (site.compound F op core).2 = _ ∧ _
  unfold compound at e ⊢
  dsimp only at e ⊢
  split at e
  next => cases e
  next => exact Core.compoundPointerStore_error (Prod.ext e rfl)

/-- A load through a pointer is atomic. -/
lemma atomic_loadThrough (loads : site.st.op.loadsThrough = true) (words : Nat) (base offset : Word) :
    site.Atomic F (.call (.loadThrough words base offset) .ofExcept) := by
  refine Prog.fails_ofExcept (R := Micro.Answer) (f := .loadThrough words base offset) (k := id)
    fun core kind e => ?_
  have e : (site.loadThrough words base offset core).1 = .error kind := e
  show site.Faults core kind (site.loadThrough words base offset core).2
  unfold loadThrough at e ⊢
  split at e
  next => cases e
  next =>
    dsimp only at e ⊢
    split at e
    next => cases e
    next failed =>
      cases e
      obtain ⟨p, rfl⟩ := Core.ptrRead_error failed
      exact ⟨loads, rfl⟩

/-- What a load does with its bytes comes after it. -/
lemma atomic_ptrRead (loads : site.st.op.loadsThrough = true) (n : Nat) (base offset : Word)
    {g : List Byte → Arm α} (rest : ∀ bytes, (g bytes).Total) :
    site.Atomic F (.call (.ptrRead n base offset) fun r => (Prog.ofExcept r).bind g) := by
  have read : site.Atomic F (.call (.ptrRead n base offset) .ofExcept) := by
    refine Prog.fails_ofExcept (R := Micro.Answer) (f := .ptrRead n base offset) (k := id)
      fun core kind e => ?_
    obtain ⟨p, rfl⟩ := Core.ptrRead_error e
    exact ⟨loads, rfl⟩
  exact Prog.Fails.bind read rest

end Site

/-! ## Arms -/

namespace Arm

/-- An arm over several words does not fail if the arms of the words do not. -/
lemma total_eachWord {p : Nat → Arm Unit} (n : Nat) (word : ∀ k, (p k).Total) :
    (eachWord p n).Total := by
  induction n with
  | zero => trivial
  | succ n ih => exact ih.bind fun _ => word n

/-- An arm over three words does not fail if the arms of the words do not. -/
lemma total_each3 {p : Nat → Arm Unit} (word : ∀ k, (p k).Total) : (each3 p).Total :=
  (word 0).bind fun _ => (word 1).bind fun _ => word 2

/-- `loadField` does not fail. -/
lemma total_loadField : loadField.Total := by
  intro e f core
  dsimp only [Prog.bind]
  split
  next => exact fun _ => trivial
  next => exact fun _ _ => trivial

/-- `loadV` does not fail. -/
lemma total_loadV : loadV.Total := by
  intro e f core
  dsimp only [Prog.bind]
  split
  next => exact total_each3 fun _ _ => trivial
  next => exact fun _ => total_eachWord _ fun _ _ => trivial

/-- `loadI64` does not fail. -/
lemma total_loadI64 : loadI64.Total := by
  intro e f core
  dsimp only [Prog.bind]
  split
  next => exact fun _ _ => trivial
  next => exact fun _ => total_eachWord _ fun _ _ => trivial

/-- `address` does not fail. -/
lemma total_address : address.Total := by
  intro e f core
  dsimp only [Prog.bind]
  split
  next => exact fun _ => trivial
  next =>
    split
    next => exact fun _ => trivial
    next =>
      split
      next => exact fun _ _ => trivial
      next => exact fun _ => trivial

/-- `notS` does not fail. -/
lemma total_notS : notS.Total := by
  intro r
  dsimp only [Prog.bind]
  split
  next => exact fun _ => trivial
  next => exact fun _ _ => trivial

/-- Drawing random numbers does not fail. -/
lemma total_rand (F : FloatOps) (steps : Word) (k : Nat) {op : Word → Arm Word}
    (value : ∀ r, (op r).Total) : (rand F steps k op).Total :=
  fun _ => (value _).bind fun _ _ => trivial

/-- A result alone does not fail. -/
lemma total_pure (r : Word) : (.pure r : Arm Word).Total := trivial

/-- A random number below a bound does not fail. -/
lemma total_scaled (F : FloatOps) (k : Nat) (r : Word) : (scaled F k r).Total := fun _ => trivial

/-- A random number between two bounds does not fail. -/
lemma total_between (F : FloatOps) (k : Nat) (r : Word) : (between F k r).Total :=
  fun _ _ => trivial

/-- The opcodes of operands only do not fail. -/
lemma total_operandArm {F : FloatOps} {site : Site} {op : Op} {p : Arm Unit}
    (e : operandArm F site op = some p) : p.Total := by
  have each3 {q : Nat → Arm Unit} (word : ∀ k, (q k).Total) : (Arm.each3 q).Total := total_each3 word
  -- A straight line of reads and writes ends whatever the reads answer.
  cases op <;> cases e <;> first
    | exact fun _ _ => trivial
    | exact fun _ _ _ => trivial
    | exact fun _ _ _ _ => trivial
    | exact fun _ _ _ _ _ => trivial
    | exact fun _ _ _ _ _ _ => trivial
    | exact fun _ _ _ _ _ _ _ => trivial
    | exact each3 fun _ _ _ _ => trivial

end Arm

namespace Site

variable {F : FloatOps} {site : Site}

open Arm

/-- `storeP` is atomic. -/
lemma atomic_storeP (stores : site.st.op.storesThrough = true) (words : Nat) :
    site.Atomic F (storeP words) := by
  have stored (v0 v1 v2 : Word) : site.Atomic F (do
      let base ← get .b 0
      let idx ← get .c 0
      .call (.storeThrough base (idx * 4) (wordsBytes ([v0, v1, v2].take words))) .ofExcept :
      Arm Unit) :=
    atomic_get .b 0 fun _ => atomic_get .c 0 fun _ => atomic_storeThrough stores _ _ _
  refine atomic_get .a 0 fun v0 => ?_
  dsimp only
  split
  next =>
    refine atomic_get .a 1 fun v1 => ?_
    split
    next => exact atomic_get .a 2 fun v2 => stored v0 v1 v2
    next => exact stored v0 v1 0
  next =>
    change site.Atomic F (if 2 < words then _ else _ : Arm Unit)
    split
    next => exact atomic_get .a 2 fun v2 => stored v0 0 v2
    next => exact stored v0 0 0

/-- `storePBytes` is atomic. -/
lemma atomic_storePBytes (stores : site.st.op.storesThrough = true) (scale : Word)
    (bytes : Word → List Byte) : site.Atomic F (storePBytes scale bytes) :=
  atomic_get .a 0 fun _ => atomic_get .b 0 fun _ => atomic_get .c 0 fun _ => atomic_ptrWrite stores _ _ _

/-- `storePI64` is atomic. -/
lemma atomic_storePI64 (stores : site.st.op.storesThrough = true) : site.Atomic F storePI64 :=
  atomic_get .b 0 fun _ => atomic_get .c 0 fun _ => atomic_get .a 0 fun _ => atomic_get .a 1 fun _ =>
    atomic_ptrWrite stores _ _ _

/-- `loadP` is atomic. -/
lemma atomic_loadP (loads : site.st.op.loadsThrough = true) (words : Nat) :
    site.Atomic F (loadP words) :=
  atomic_get .a 0 fun _ => atomic_get .b 0 fun _ => atomic_loadThrough loads _ _ _

/-- `loadPBytes` is atomic. -/
lemma atomic_loadPBytes (loads : site.st.op.loadsThrough = true) (n : Nat) (index : Word → Word)
    (value : List Byte → Word) : site.Atomic F (loadPBytes n index value) :=
  atomic_get .a 0 fun _ => atomic_get .b 0 fun _ => atomic_ptrRead loads n _ _ fun _ _ => trivial

/-- `loadPI64` is atomic. -/
lemma atomic_loadPI64 (loads : site.st.op.loadsThrough = true) : site.Atomic F loadPI64 :=
  atomic_get .a 0 fun _ => atomic_get .b 0 fun _ => atomic_ptrRead loads 8 _ _ fun _ _ _ => trivial

/-- `loadPConv` is atomic. -/
lemma atomic_loadPConv (loads : site.st.op.loadsThrough = true) (op : Word → Word) :
    site.Atomic F (loadPConv op) := by
  refine atomic_get .a 0 fun p => atomic_look fun core => ?_
  cases core.mem.readU32 p with
  | some w => exact Prog.Total.fails fun _ => trivial
  | none => exact atomic_fail loads

/-- An index is checked before what it names is copied. -/
lemma atomic_index (indexes : site.st.op.indexesGlobals = true) {bad : Prop} [Decidable bad] (i : Int)
    {copy : Arm Unit} (total : copy.Total) :
    site.Atomic F (if bad then .fail (.arrayIndex i) else copy) := by
  split
  next => exact atomic_fail indexes
  next => exact total.fails

/-- `fetchGbl` is atomic. -/
lemma atomic_fetchGbl (indexes : site.st.op.indexesGlobals = true) (stride : Nat) :
    site.Atomic F (fetchGbl F site stride) := by
  refine atomic_memGet .b 0 fun f => ?_
  dsimp only
  split
  next => exact atomic_fail indexes
  next =>
    exact atomic_look fun core => atomic_index indexes _ (total_eachWord _ fun _ _ _ => trivial)

/-- `loadA` is atomic. -/
lemma atomic_loadA (indexes : site.st.op.indexesGlobals = true) (words : Nat) :
    site.Atomic F (loadA site words) :=
  atomic_get .b 0 fun _ => atomic_index indexes _ (total_eachWord _ fun _ _ _ => trivial)

/-- `gLoad` is atomic. -/
lemma atomic_gLoad (indexes : site.st.op.indexesGlobals = true) (words : Nat) :
    site.Atomic F (gLoad site words) :=
  atomic_get .a 0 fun _ => atomic_index indexes _ (total_eachWord _ fun _ _ _ => trivial)

/-- `gStore` is atomic. -/
lemma atomic_gStore (indexes : site.st.op.indexesGlobals = true) (words : Nat) :
    site.Atomic F (gStore site words) :=
  atomic_get .b 0 fun _ => atomic_index indexes _ (total_eachWord _ fun _ _ _ => trivial)

/-- `boundCheck` is atomic. -/
lemma atomic_boundCheck (own : site.st.op = .boundCheck) : site.Atomic F (boundCheck site) := by
  refine atomic_get .a 0 fun v => ?_
  split
  next =>
    refine atomic_fail ?_
    rw [own]
    rfl
  next => exact Prog.Total.fails trivial

/-- `push` is atomic. -/
lemma atomic_push (own : site.st.op = .push) : site.Atomic F push := by
  refine atomic_get .a 0 fun words => atomic_look fun core => ?_
  dsimp only
  split
  next =>
    refine atomic_fail ?_
    rw [own]
    rfl
  next => exact Prog.Total.fails fun _ _ => trivial

/-- An opcode that reaches memory faults before it changes any. -/
lemma atomic_memoryArm {p : Arm Unit} (e : memoryArm F site site.st.op = some p) : site.Atomic F p := by
  have own (kind : ErrorKind) (own : site.st.op.raises kind = true) :
      site.Atomic F (.fail kind : Arm Unit) := atomic_fail own
  generalize op : site.st.op = o at e
  have stores : o.storesThrough = true → site.st.op.storesThrough = true := fun h => op ▸ h
  have loads : o.loadsThrough = true → site.st.op.loadsThrough = true := fun h => op ▸ h
  have indexes : o.indexesGlobals = true → site.st.op.indexesGlobals = true := fun h => op ▸ h
  rw [op] at own
  cases o <;> cases e <;>
    (with_reducible first
      | exact atomic_storeP (stores rfl) _
      | exact atomic_storePBytes (stores rfl) _ _
      | exact atomic_storePI64 (stores rfl)
      | exact atomic_compound (stores rfl) _
      | exact atomic_pointerStore (stores rfl) _
      | exact atomic_loadP (loads rfl) _
      | exact atomic_loadPBytes (loads rfl) _ _ _
      | exact atomic_loadPI64 (loads rfl)
      | exact atomic_loadPConv (loads rfl) _
      | exact atomic_fetchGbl (indexes rfl) _
      | exact atomic_loadA (indexes rfl) _
      | exact atomic_gLoad (indexes rfl) _
      | exact atomic_gStore (indexes rfl) _
      | exact atomic_boundCheck op
      | exact atomic_push op
      | skip)
  case loadF.refl | loadS.refl | loadEnt.refl | loadFld.refl | loadFnc.refl | loadI.refl | loadP.refl =>
    exact total_loadField.fails
  case loadV.refl => exact total_loadV.fails
  case loadI64.refl => exact total_loadI64.fails
  case address.refl => exact total_address.fails
  case notS.refl => exact total_notS.fails
  case eqS.refl | neS.refl => exact Prog.Total.fails fun _ _ _ _ => trivial
  case storeFieldF.refl | storeFieldS.refl | storeFieldI.refl | storeFieldV.refl | storeFieldI64.refl =>
    exact Prog.Total.fails fun _ => trivial
  case rand0.refl => exact (total_rand F _ 0 total_pure).fails
  case rand1.refl => exact (total_rand F _ 0 (total_scaled F 0)).fails
  case rand2.refl => exact (total_rand F _ 0 (total_between F 0)).fails
  case randV0.refl => exact (total_each3 fun k => total_rand F _ k total_pure).fails
  case randV1.refl => exact (total_each3 fun k => total_rand F _ k (total_scaled F k)).fails
  case randV2.refl => exact (total_each3 fun k => total_rand F _ k (total_between F k)).fails
  case gAddress.refl | jumpOutOfRange.refl => exact own _ rfl
  case unused.refl | pop.refl | bad.refl =>
    rw [op]
    exact own _ rfl

/-- So does an opcode that decides what runs next. -/
lemma atomic_controlArm {exitDepth : Nat} : site.Atomic F (controlArm F site exitDepth site.st.op) := by
  have hit (kind : SwitchKind) : (caseHit F kind).Total := by
    cases kind <;> first
      | exact fun _ _ => trivial
      | exact fun _ _ _ => trivial
      | exact fun _ _ _ _ _ _ => trivial
  have inRange (own : site.st.op = .caseRange) (kind : SwitchKind) :
      site.Atomic F (caseRangeHit F kind) := by
    cases kind with
    | float | int => exact Prog.Total.fails fun _ _ _ => trivial
    | vector => exact Prog.Total.fails fun _ _ _ _ _ _ _ _ _ => trivial
    | string =>
      refine atomic_fail ?_
      rw [own]
      rfl
  generalize op : site.st.op = o
  unfold controlArm
  split
  all_goals first
    | exact Prog.Total.fails trivial
    | exact Prog.Total.fails fun _ => trivial
    | exact Prog.Total.fails fun _ _ => trivial
    | exact Prog.Total.fails fun _ _ _ => trivial
    | exact atomic_look fun core => Prog.Total.fails ((hit _).bind fun _ => trivial)
    | exact atomic_look fun core => Prog.Fails.bind (inRange op _) fun _ => trivial

/-- A statement that fails has done nothing, and raised an error of its opcode. -/
theorem atomic_statement {exitDepth : Nat} : site.Atomic F (statement F site exitDepth) := by
  unfold statement
  dsimp only
  cases operands : operandArm F site site.st.op with
  | some p => exact Atomic.falls (total_operandArm operands).fails
  | none =>
    cases memory : memoryArm F site site.st.op with
    | some p => exact Atomic.falls (atomic_memoryArm memory)
    | none => exact atomic_controlArm

/-! ## Calls -/

/-- The call raised an error of its opcode. It has passed its arguments, stored their number and may
have switched progs; only globals are touched by that, and none where nothing has to be passed. -/
def Refuses (site : Site) (core : Core) (kind : ErrorKind) (core' : Core) : Prop :=
  site.st.op.raises kind = true ∧ ∃ m argc, core.mem.OnlyS m ∧
    core'.markPc site.pc = { core.markPc site.pc with mem := m, argc := argc } ∧
    (site.st.op.isHexen2Call = false → core.progs.length ≤ 1 → m = core.mem)

/-- A copy to a fixed place succeeds and changes only region S. -/
lemma run_copyToGlobals (F : FloatOps) (s : Slot) (off : Nat) (core : Core) : ∃ m, core.mem.OnlyS m ∧
    (copyToGlobals s off).run (site.handle F) core = (.ok (), { core with mem := m }) := by
  refine ⟨_, ⟨_, ?_, rfl⟩, rfl⟩
  simp only [handle, Core.withS, View.size_set]

/-- Arguments are passed in globals. -/
lemma run_passArguments (F : FloatOps) (core : Core) : ∃ m, core.mem.OnlyS m ∧
    (passArguments site.st.op).run (site.handle F) core = (.ok (), { core with mem := m }) ∧
    (site.st.op.isHexen2Call = false → m = core.mem) := by
  unfold passArguments
  dsimp only
  split
  next hexen =>
    obtain ⟨first, only, run⟩ := @run_copyToGlobals site F .b ofsParm0 core
    split
    next =>
      obtain ⟨second, only', run'⟩ := @run_copyToGlobals site F .c ofsParm1 core
      obtain ⟨both, only'', run''⟩ := @run_copyToGlobals site F .b ofsParm0 { core with mem := second }
      refine ⟨both, only'.trans only'', ?_, fun v6 => absurd hexen (Bool.eq_false_iff.mp v6)⟩
      rw [Prog.bind_eq, Prog.run_bind, run']
      exact run''
    next => exact ⟨first, only, run, fun v6 => absurd hexen (Bool.eq_false_iff.mp v6)⟩
  next => exact ⟨core.mem, .refl _, rfl, fun _ => rfl⟩

/-- A call that fails has done nothing but pass its arguments, and may have switched progs. -/
theorem fails_dispatch (call : site.st.op.callArgc.isSome) :
    (dispatch site).Fails (site.handle F) site.Refuses := by
  intro core kind core' ran
  obtain ⟨m, only, passed, v6⟩ := @run_passArguments site F core
  rw [run_dispatch, passed] at ran
  have ran : site.called _ { core with mem := m } = (.error kind, core') := ran
  generalize site.view.g _ site.st.a = fv at ran
  unfold called at ran
  dsimp only at ran
  split at ran
  next =>
    rcases entered : Core.enter (Core.markPc _ site.pc) _ _ (wrappingAdd site.pc 1) with ⟨_ | _, c⟩
    · rw [entered] at ran
      cases ran
      obtain ⟨own, stays⟩ := Core.enter_refuses call entered
      obtain ⟨m', rfl, only'⟩ := Core.enter_error entered
      refine ⟨own, m', _, only.trans only', rfl, fun plain alone => ?_⟩
      exact (congrArg Core.mem (stays alone)).trans (v6 plain)
    · rw [entered] at ran
      cases ran
  next => cases ran
  next =>
    cases ran
    exact ⟨call, m, _, only, rfl, fun plain _ => v6 plain⟩
  next =>
    cases ran
    exact ⟨Core.raises_missingBuiltin call _, m, _, only, rfl, fun plain _ => v6 plain⟩
  next =>
    cases ran
    exact ⟨call, m, _, only, rfl, fun plain _ => v6 plain⟩
  next =>
    cases ran
    exact ⟨call, m, _, only, rfl, fun plain _ => v6 plain⟩

end Site

end Qcvm

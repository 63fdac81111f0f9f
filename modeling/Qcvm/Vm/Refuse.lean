import Qcvm.Vm.Blocks
import Qcvm.Vm.Boot

/-!
# A refused addprogs

`Vm::add_progs` with its call of `init`, and the `addprogs` builtin (`stdlib/progs.rs`). Both report a
lack of resources, and the builtin cannot tell a program that does not fit from one that was added and
whose `init` ran out of something.
-/

namespace Qcvm

open Lib

/-- A host call runs until the stack of calls is as high as before it, and ends with its result. -/
inductive Sys.Calls (F : FloatOps) (depth : Nat) :
    Sys → Except VmError (Word × Word × Word) → Sys → Prop where
  | returned {s : Sys} {r : Except VmError (Word × Word × Word)} : s.stack.length = depth →
      s.events.getLast? = some (.returned r) → Calls F depth s r s
  | act {s t u : Sys} {r : Except VmError (Word × Word × Word)} {a : Action} :
      depth < s.stack.length → s.actIdleReset F a = some t → Calls F depth t r u → Calls F depth s r u

/-- `function_index`. -/
def Program.functionIndex (p : Program) (name : List Byte) : Option Nat := p.functionsByName.lookup name

/-- `Vm::add_progs`, from one system to another, with its result. -/
inductive AddProgs (F : FloatOps) (l : Loaded) : Sys → Except VmError Nat → Sys → Prop where
  | refused {s : Sys} {resource : Resource} {core : Core} :
      s.vm.core.addProgs F l.program s.vm.builtins true = (.error resource, core) →
      AddProgs F l s (.error (.new (.outOfMemory resource)))
        { s with vm := s.vm.host F (.addProgs l true) }
  | added {s : Sys} {pr : Nat} {core : Core} :
      s.vm.core.addProgs F l.program s.vm.builtins true = (.ok pr, core) →
      l.program.functionIndex (ascii "init") = none →
      AddProgs F l s (.ok pr) { s with vm := s.vm.host F (.addProgs l true) }
  | init {s t : Sys} {pr index : Nat} {core : Core} {r : Except VmError (Word × Word × Word)} :
      s.vm.core.addProgs F l.program s.vm.builtins true = (.ok pr, core) →
      l.program.functionIndex (ascii "init") = some index →
      Sys.Calls F s.stack.length ({ s with vm := s.vm.host F (.addProgs l true) }.call (.new pr index)
        [.float (F.ofU32 (BitVec.ofNat 32 (pr - 1)))]) r t →
      AddProgs F l s (r.map fun _ => pr) t

/-- The `addprogs` builtin, up to setting its return value: the number of the program `given` by the
host, or none for -1. -/
inductive AddProgsBuiltin (F : FloatOps) (given : Option Loaded) :
    Sys → Except VmError (Option Nat) → Sys → Prop where
  | absent {s : Sys} : given = none → AddProgsBuiltin F given s (.ok none) s
  | added {s t : Sys} {l : Loaded} {pr : Nat} : given = some l → AddProgs F l s (.ok pr) t →
      AddProgsBuiltin F given s (.ok (some pr)) t
  | full {s t : Sys} {l : Loaded} {e : VmError} {resource : Resource} {msg : String} :
      given = some l → AddProgs F l s (.error e) t → e.kind = .outOfMemory resource →
      AddProgsBuiltin F given s (.ok none) { t with vm := t.vm.host F (.warn msg) }
  | failed {s t : Sys} {l : Loaded} {e : VmError} : given = some l → AddProgs F l s (.error e) t →
      (∀ resource, e.kind ≠ .outOfMemory resource) → AddProgsBuiltin F given s (.error e) t

namespace Core

/-- The global of a bodyless function, by its address. -/
def ExternSlot (core : Core) (at' : Nat) : Prop :=
  ∃ ps ∈ core.progs, ∃ name ∈ ps.program.bodyless, ∃ d, ps.program.globalDef name = some d ∧
    d.ty = .function ∧ defAddress d ps.gbase = some at'

/-- The same progs are loaded, with the same fields, the same linked externs and the same callable
functions. -/
structure SameLoaded (core core' : Core) : Prop where
  progs : core'.progs.length = core.progs.length
  fields : core'.fields = core.fields
  fieldBytes : core'.mem.fieldBytes = core.mem.fieldBytes
  externs : ∀ at', core'.ExternSlot at' ↔ core.ExternSlot at'
  linked : ∀ at', core.ExternSlot at' → core'.mem.g at' = core.mem.g at'
  callable : ∀ f, core'.callee f = core.callee f

variable {F : FloatOps} {core core' : Core} {p : Program} {builtins : Builtins}

lemma SameLoaded.refl (core : Core) : core.SameLoaded core :=
  ⟨rfl, rfl, rfl, fun _ => Iff.rfl, fun _ _ => rfl, fun _ => rfl⟩

/-- Nothing but the progs, the fields and memory matters. -/
lemma sameLoaded_congr {after after' : Core} (progs : after'.progs = after.progs)
    (fields : after'.fields = after.fields) (mem : after'.mem = after.mem) :
    core.SameLoaded after' ↔ core.SameLoaded after := by
  have slot (at' : Nat) : after'.ExternSlot at' ↔ after.ExternSlot at' := by
    unfold ExternSlot
    rw [progs]
  have callee (f : FuncRef) : after'.callee f = after.callee f := by
    unfold callee
    rw [progs]
  constructor
  · intro h
    exact ⟨progs ▸ h.progs, fields ▸ h.fields, mem ▸ h.fieldBytes,
      fun at' => (slot at').symm.trans (h.externs at'), mem ▸ h.linked,
      fun f => (callee f).symm.trans (h.callable f)⟩
  · intro h
    exact ⟨progs ▸ h.progs, fields ▸ h.fields, mem ▸ h.fieldBytes,
      fun at' => (slot at').trans (h.externs at'), mem ▸ h.linked,
      fun f => (callee f).trans (h.callable f)⟩

/-- A program is refused only for a lack of resources, and then nothing changes. -/
lemma refuses_of_addProgs {resource : Resource}
    (e : core.addProgs F p builtins true = (.error resource, core')) :
    core.Refuses p ∧ core' = core := by
  rcases addProgs_cases F core p builtins true with
    ⟨refuses, _, refused⟩ | ⟨_, _, _, -, -, -, ⟨none, -⟩ | ⟨-, added⟩⟩
  · cases e.symm.trans refused
    exact ⟨refuses, rfl⟩
  · cases none
  · cases e.symm.trans added

lemma not_refuses_of_addProgs {pr : Nat} (e : core.addProgs F p builtins true = (.ok pr, core')) :
    ¬core.Refuses p ∧ core'.progs.length = core.progs.length + 1 := by
  rcases addProgs_cases F core p builtins true with
    ⟨-, _, refused⟩ | ⟨map, fields, fieldBytes, few, room, mapped, ⟨none, -⟩ | ⟨-, added⟩⟩
  · cases e.symm.trans refused
  · cases none
  · cases e.symm.trans added
    refine ⟨?_, length_joined⟩
    rintro (many | full | unmapped)
    · omega
    · omega
    · cases unmapped.symm.trans mapped

/-- Progs are never taken away. -/
lemma grown (F : FloatOps) (n : Nat) : PlainKept F fun core => n ≤ core.progs.length where
  plain le p := by
    rw [p.progs]
    exact le
  host {core builtins} op le _ := by
    have hosted : Hosted F op core (core.host F builtins op) := core.hosted op
    rcases hosted.progs with ⟨same, -⟩ | ⟨l, reserved, rfl⟩
    · rw [same]
      exact le
    · simp only [host]
      rcases addProgs_cases F core l.program builtins reserved with
        ⟨-, _, e⟩ | ⟨map, fields, fieldBytes, -, -, -, ⟨-, e⟩ | ⟨-, e⟩⟩
      · rw [e]
        exact le
      · rw [e]
        exact le
      · rw [e]
        exact Nat.le_trans le (Nat.le_trans (Nat.le_succ _) (Nat.le_of_eq length_joined.symm))

end Core

/-- A call takes no progs away. -/
lemma Sys.Calls.grown {F : FloatOps} {depth n : Nat} {s t : Sys}
    {r : Except VmError (Word × Word × Word)} (c : Sys.Calls F depth s r t) (b : s.Base)
    (le : n ≤ s.vm.core.progs.length) : n ≤ t.vm.core.progs.length := by
  induction c with
  | returned => exact le
  | @act s t u r a running acts _ ih =>
    have kept : a = .reset → ∀ {main : Loaded} {builtins config core},
        buildCore main.program builtins config = .ok core → n ≤ core.progs.length := by
      rintro rfl
      obtain ⟨p, rest, stack⟩ := List.exists_cons_of_length_pos (Nat.lt_of_le_of_lt (Nat.zero_le _)
        running)
      have idle := (Sys.actIdleReset_eq_some.mp acts).2 rfl
      cases stack.symm.trans idle
    obtain ⟨base, grown⟩ := ((Core.grown F n).rules a kept).act le b acts
    exact ih base grown

/-- If `add_progs` fails for lack of resources, nothing changed if and only if the program was refused:
else it was added, and its `init` failed. -/
lemma AddProgs.same_iff {F : FloatOps} {l : Loaded} {s t : Sys} {r : Except VmError Nat} {e : VmError}
    (b : s.Base) (host : s.hostRuns) (add : AddProgs F l s r t) (failed : r = .error e) :
    s.vm.core.SameLoaded t.vm.core ↔ s.vm.core.Refuses l.program := by
  cases add with
  | refused refused =>
    obtain ⟨refuses, rfl⟩ := Core.refuses_of_addProgs refused
    refine iff_of_true ?_ refuses
    have same : (s.vm.host F (.addProgs l true)).core = s.vm.core := by
      rw [Vm.core_host, Core.host, refused]
    dsimp only
    rw [same]
    exact .refl _
  | added => cases failed
  | @init _ pr index core r added _ calls =>
    obtain ⟨fits, more⟩ := Core.not_refuses_of_addProgs added
    refine iff_of_false (fun same => ?_) fits
    have next : (s.vm.host F (.addProgs l true)).core.progs.length = s.vm.core.progs.length + 1 := by
      rw [Vm.core_host, Core.host, added, more]
    have R := (Core.grown F (s.vm.core.progs.length + 1)).rules
      (.call (.new pr index) [.float (F.ofU32 (BitVec.ofNat 32 (pr - 1)))])
      (fun reset => by cases reset)
    obtain ⟨base, called⟩ := R.call rfl (Nat.le_of_eq next.symm) (@Sys.Base.host s F (.addProgs l true) b) host
    have grown := calls.grown base called
    have same := same.progs
    omega

/-- A registry with a function behind every number. -/
def Builtins.numbered : Builtins := ⟨some, fun _ => .none, fun _ => true⟩

/-- The error a call failed with. -/
def Event.failure : Event → Option VmError
  | .returned (.error e) => some e
  | _ => none

/-- A program whose `init` is a builtin. -/
def Asm.builtinInit : Asm where
  statements := [⟨0, 0, 0, 0, none⟩]
  functions := [⟨0, 0, 0, 0, 0, 0, []⟩, ⟨-1, 0, 0, 1, 0, 0, []⟩]
  globals := [0]
  strings := [0, 105, 110, 105, 116, 0]

/-- A configuration without room for added progs. -/
def VmConfig.single : VmConfig :=
  { VmConfig.menu with limits := { VmConfig.menu.limits with progs := 1 } }

end Qcvm

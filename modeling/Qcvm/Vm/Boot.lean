import Qcvm.Progs.Assemble
import Qcvm.Vm.Rules

/-!
# Booting an assembled program

The way from a program written down in the assembler to a VM: the loader reads the file and
`Vm::new` builds the VM. What is reached from there is reachable.
-/

namespace Qcvm

open Lib

/-- The program of an assembled file, if the loader accepts it. -/
def Asm.load (asm : Asm) : Option Loaded :=
  match parsed : parse asm.build with
  | .ok program => some ⟨program, asm.build, parsed⟩
  | .error _ => none

/-- A VM for an assembled program. -/
def Asm.boot (asm : Asm) (builtins : Builtins) (config : VmConfig) : Option Vm := do
  (Vm.new (← asm.load) builtins config).toOption

/-- A registry that binds no builtins. -/
def Builtins.none : Builtins := ⟨fun _ => .none, fun _ => .none, fun _ => false⟩

lemma Except.eq_ok_of_toOption {ε α : Type} {x : Except ε α} {a : α} (e : x.toOption = some a) :
    x = .ok a := by
  cases x with
  | error => cases e
  | ok b =>
    cases e
    rfl

variable {asm : Asm} {builtins : Builtins} {config : VmConfig} {vm : Vm}

lemma new_of_boot (e : asm.boot builtins config = some vm) :
    ∃ main, asm.load = some main ∧ Vm.new main builtins config = .ok vm := by
  unfold Asm.boot at e
  obtain ⟨main, loaded, new⟩ := Option.bind_eq_some_iff.mp e
  exact ⟨main, loaded, Except.eq_ok_of_toOption new⟩

/-- A booted VM has the core `build_core` makes of its program. -/
lemma built_of_boot (e : asm.boot builtins config = some vm) :
    buildCore vm.main.program builtins config = .ok vm.core := by
  obtain ⟨main, -, new⟩ := new_of_boot e
  unfold Vm.new at new
  cases built : buildCore main.program builtins config with
  | error kind =>
    rw [built] at new
    cases new
  | ok core =>
    rw [built] at new
    cases new
    exact built

/-- What a booted VM comes to is reachable. -/
lemma reachable_boot {F : FloatOps} {as : List Action} {s : Sys}
    (e : asm.boot builtins config = some vm) (acts : vm.start.actsIdleReset F as = some s) :
    s.Reachable F := by
  obtain ⟨main, -, new⟩ := new_of_boot e
  exact ⟨main, builtins, config, vm, as, new, acts⟩

lemma reachable_start {F : FloatOps} (e : asm.boot builtins config = some vm) :
    vm.start.Reachable F := by
  obtain ⟨main, -, new⟩ := new_of_boot e
  exact ⟨main, builtins, config, vm, [], new, rfl⟩

/-- The smallest program: a statement that ends a function, and no functions. -/
def Asm.minimal : Asm where
  statements := [⟨0, 0, 0, 0, none⟩]
  globals := [0]
  strings := [0]

example : (Asm.minimal.boot .none .menu).isSome = true := by decide +kernel

end Qcvm

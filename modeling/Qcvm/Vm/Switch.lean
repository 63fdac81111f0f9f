import Qcvm.Vm.Blocks
import Qcvm.Vm.Boot
import Qcvm.Vm.Words

/-!
# Switching between progs

`switch_in` copies the PARM slots and the shared globals into the progs that is entered, `switch_out`
RETURN and the shared globals back. Neither looks at the number of globals: the copies stay in the
block of their progs if the slots do, and the shared globals with them.
-/

namespace Qcvm

open Lib

/-- The byte lies in `words` words from `off` on. -/
def InWords (off words o : Nat) : Prop := off ≤ o ∧ o < off + 4 * words

namespace ProgsState

variable (ps : ProgsState)

/-- The byte lies in the globals of a progs or in the zero words behind them. -/
def InGlobals (o : Nat) : Prop := InWords ps.gbase (ps.numGlobals + 3) o

/-- The byte lies in the strings of a progs. -/
def InStrings (o : Nat) : Prop := ps.sbase ≤ o ∧ o < ps.sbase + ps.program.strings.size

/-- The byte lies in a registered shared global of a progs. -/
def InShared (o : Nat) : Prop := ∃ g, some g ∈ ps.shared ∧ InWords g.offset g.words o

end ProgsState

/-- The byte lies in the local stack. -/
def Memory.InLocalStack (m : Memory) (o : Nat) : Prop := InWords m.lsBase m.lsWords o

/-- The shared globals two progs have end, at the smaller of their widths, in the block of the
second. -/
def SharedInside (a b : ProgsState) : Prop :=
  ∀ p ∈ pairs a b, p.2.1 + 4 * p.2.2 ≤ b.gbase + 4 * (b.numGlobals + 3)

/-- A switch from progs `a` to progs `b`, number `dst`, writes only where it should: to `words` words
at `slot` and to shared globals of `b`, all of them in the block of `b`. -/
structure Core.Switched (core core' : Core) (dst : Nat) (a b : ProgsState) (slot words : Nat) :
    Prop where
  only : ∃ m, core' = { core with mem := m } ∧ core.mem.OnlyS m
  changes : ∀ o, core'.mem.s.get o ≠ core.mem.s.get o →
    InWords (b.gbase + slot) words o ∨ b.InShared o
  slotInside : ∀ o, InWords (b.gbase + slot) words o → b.InGlobals o
  sharedInside : ∀ p ∈ pairs a b, ∀ o, InWords p.2.1 p.2.2 o → b.InGlobals o
  strings : ∀ (pr : Nat) (ps : ProgsState), core.progs[pr]? = some ps → ∀ o, ps.InStrings o →
    core'.mem.s.get o = core.mem.s.get o
  globals : ∀ (pr : Nat) (ps : ProgsState), core.progs[pr]? = some ps → pr ≠ dst →
    ∀ o, ps.InGlobals o → core'.mem.s.get o = core.mem.s.get o
  localStack : ∀ o, core.mem.InLocalStack o → core'.mem.s.get o = core.mem.s.get o

namespace Core

variable {core : Core} {a b : ProgsState} {src dst : Nat}

/-- What both switches do: copy a slot, then the shared globals. -/
def copySwitch (core : Core) (a b : ProgsState) (slot words : Nat) : Core :=
  { core with
    mem := copyPairs (core.mem.copyG (a.gbase + slot) (b.gbase + slot) words) (pairs a b) }

lemma switchIn_eq_copySwitch (here : core.progs[src]? = some a) (there : core.progs[dst]? = some b) :
    core.switchIn src dst = core.copySwitch a b ofsParm0 parmWords := by
  unfold switchIn
  rw [here, there]
  rfl

lemma switchOut_eq_copySwitch (here : core.progs[src]? = some a) (there : core.progs[dst]? = some b) :
    core.switchOut src dst = core.copySwitch a b ofsReturn 3 := by
  unfold switchOut
  rw [here, there]
  rfl

/-- A pair comes from a shared global of either progs, of the smaller width. -/
lemma mem_pairs {p : Nat × Nat × Nat} (mem : p ∈ pairs a b) :
    ∃ x y, some x ∈ a.shared ∧ some y ∈ b.shared ∧ p = (x.offset, y.offset, min x.words y.words) := by
  unfold pairs at mem
  obtain ⟨⟨x, y⟩, zipped, e⟩ := List.mem_filterMap.mp mem
  obtain ⟨left, right⟩ := List.of_mem_zip zipped
  cases x with
  | none => cases e
  | some x =>
    cases y with
    | none => cases e
    | some y =>
      cases e
      exact ⟨x, y, left, right, rfl⟩

/-- Shared globals lie at or behind the start of the globals, and are not empty. -/
lemma Blocks.le_shared (l : core.Blocks) {ps : ProgsState} (mem : ps ∈ core.progs) {g : SharedGlobal}
    (shared : some g ∈ ps.shared) : ps.gbase ≤ g.offset ∧ 1 ≤ g.words := by
  obtain ⟨names, all⟩ := l.shared
  rw [all ps mem] at shared
  obtain ⟨name, -, e⟩ := List.mem_map.mp shared
  unfold sharedGlobal at e
  obtain ⟨d, -, e⟩ := Option.bind_eq_some_iff.mp e
  obtain ⟨offset, address, e⟩ := Option.bind_eq_some_iff.mp e
  cases e
  obtain ⟨off, -, sum⟩ := Option.bind_eq_some_iff.mp address
  obtain ⟨-, rfl⟩ := checkedAdd_eq_some.mp sum
  exact ⟨Nat.le_add_left _ _, Nat.le_max_right _ _⟩

/-- The block of a progs holds no byte of the strings, of the local stack or of another block. -/
lemma Blocks.apart (l : core.Blocks) (there : core.progs[dst]? = some b) {o : Nat}
    (inside : b.InGlobals o) :
    (∀ (pr : Nat) (ps : ProgsState), core.progs[pr]? = some ps → ¬ps.InStrings o) ∧
      (∀ (pr : Nat) (ps : ProgsState), core.progs[pr]? = some ps → pr ≠ dst → ¬ps.InGlobals o) ∧
      ¬core.mem.InLocalStack o := by
  obtain ⟨lo, hi⟩ := inside
  have mem := List.mem_of_getElem? there
  have others {pr : Nat} {ps : ProgsState} (at' : core.progs[pr]? = some ps) (ne : pr ≠ dst) :
      ps.finish ≤ b.sbase ∨ b.finish ≤ ps.sbase := by
    rcases Nat.lt_or_gt_of_ne ne with lt | gt
    · exact .inl (l.before at' there lt)
    · exact .inr (l.before there at' gt)
  have own := (l.based b mem).sbase_le
  refine ⟨fun pr ps at' => ?_, fun pr ps at' ne => ?_, ?_⟩
  · rintro ⟨start, past⟩
    have strings := (l.based ps (List.mem_of_getElem? at')).sbase_le
    by_cases same : pr = dst
    · subst same
      cases at'.symm.trans there
      omega
    · have apart := others at' same
      unfold ProgsState.finish at apart
      omega
  · rintro ⟨start, past⟩
    have strings := (l.based ps (List.mem_of_getElem? at')).sbase_le
    have apart := others at' ne
    unfold ProgsState.finish at apart
    omega
  · rintro ⟨start, past⟩
    have apart := l.stack_apart mem
    unfold Memory.lsEnd at apart
    omega

/-- A switch writes only where it should if and only if the slot and the shared globals lie in the
block of the progs it goes to. -/
lemma switched_iff (l : core.Blocks) (here : core.progs[src]? = some a)
    (there : core.progs[dst]? = some b) {slot words : Nat} (pos : 0 < words) :
    core.Switched (core.copySwitch a b slot words) dst a b slot words ↔
      slot + 4 * words ≤ 4 * (b.numGlobals + 3) ∧ SharedInside a b := by
  have shared {p : Nat × Nat × Nat} (mem : p ∈ pairs a b) :
      ∃ y, some y ∈ b.shared ∧ p.2.1 = y.offset ∧ p.2.2 ≤ y.words ∧ b.gbase ≤ p.2.1 ∧ 1 ≤ p.2.2 := by
    obtain ⟨x, y, left, right, rfl⟩ := mem_pairs mem
    obtain ⟨-, some⟩ := l.le_shared (List.mem_of_getElem? here) left
    obtain ⟨lo, some'⟩ := l.le_shared (List.mem_of_getElem? there) right
    exact ⟨y, right, rfl, Nat.min_le_right _ _, lo, Nat.le_min.mpr ⟨some, some'⟩⟩
  constructor
  · intro s
    constructor
    · have last := (s.slotInside (b.gbase + slot + 4 * words - 1) ⟨by omega, by omega⟩).2
      omega
    · intro p mem
      obtain ⟨-, -, -, -, lo, some⟩ := shared mem
      have last := (s.sharedInside p mem (p.2.1 + 4 * p.2.2 - 1) ⟨by omega, by omega⟩).2
      omega
  · rintro ⟨slotFits, sharedFits⟩
    have slotInside (o : Nat) (h : InWords (b.gbase + slot) words o) : b.InGlobals o :=
      ⟨by have := h.1; omega, by have := h.2; omega⟩
    have sharedInside (p : Nat × Nat × Nat) (mem : p ∈ pairs a b) (o : Nat)
        (h : InWords p.2.1 p.2.2 o) : b.InGlobals o := by
      obtain ⟨-, -, -, -, lo, -⟩ := shared mem
      have fits := sharedFits p mem
      exact ⟨by have := h.1; omega, by have := h.2; omega⟩
    have changes (o : Nat)
        (changed : (core.copySwitch a b slot words).mem.s.get o ≠ core.mem.s.get o) :
        InWords (b.gbase + slot) words o ∨ ∃ p ∈ pairs a b, InWords p.2.1 p.2.2 o := by
      by_contra outside
      rw [not_or, not_exists] at outside
      obtain ⟨first, rest⟩ := outside
      unfold InWords at first rest
      refine changed ((Memory.get_copyPairs_of_outside _ _ fun p mem => ?_).trans
        (Memory.get_copyG_of_outside _ _ _ _ ?_))
      · have none : ¬(p.2.1 ≤ o ∧ o < p.2.1 + 4 * p.2.2) := fun h => rest p ⟨mem, h⟩
        omega
      · omega
    have kept (o : Nat) (outside : ¬b.InGlobals o) :
        (core.copySwitch a b slot words).mem.s.get o = core.mem.s.get o := by
      by_contra changed
      rcases changes o changed with h | ⟨p, mem, h⟩
      · exact outside (slotInside o h)
      · exact outside (sharedInside p mem o h)
    refine
      { only := ⟨_, rfl, (Memory.onlyS_copyG _ _ _ _).trans (Memory.onlyS_copyPairs _ _)⟩
        changes := fun o changed => ?_
        slotInside := slotInside
        sharedInside := sharedInside
        strings := fun pr ps at' o h => kept o fun i => (l.apart there i).1 pr ps at' h
        globals := fun pr ps at' ne o h => kept o fun i => (l.apart there i).2.1 pr ps at' ne h
        localStack := fun o h => kept o fun i => (l.apart there i).2.2 h }
    rcases changes o changed with h | ⟨p, mem, h⟩
    · exact .inl h
    · obtain ⟨y, right, offset, words, -⟩ := shared mem
      exact .inr ⟨y, right, by have := h.1; omega, by have := h.2; omega⟩

end Core

/-- In every state of a run, a switch writes only where it should if and only if the progs it goes to
has room for the slots, and the shared globals lie in its block. -/
theorem switches_stay {F : FloatOps} {s : Sys} (r : s.Reachable F) {core : Core}
    (run : s.vm.core.Plain core) {src dst : Nat} {a b : ProgsState} (here : core.progs[src]? = some a)
    (there : core.progs[dst]? = some b) :
    (core.Switched (core.switchIn src dst) dst a b ofsParm0 parmWords ↔
        25 ≤ b.numGlobals ∧ SharedInside a b) ∧
      (core.Switched (core.switchOut src dst) dst a b ofsReturn 3 ↔
        1 ≤ b.numGlobals ∧ SharedInside a b) := by
  have l := (Core.blocks_invariant F).plain r.blocks run
  rw [Core.switchIn_eq_copySwitch here there, Core.switchOut_eq_copySwitch here there,
    Core.switched_iff l here there (show 0 < parmWords by decide),
    Core.switched_iff l here there (show 0 < 3 by decide)]
  unfold ofsParm0 parmWords ofsReturn
  exact ⟨and_congr (by omega) Iff.rfl, and_congr (by omega) Iff.rfl⟩

/-- A program with a value in its first parameter slot. -/
def Asm.parameters : Asm where
  statements := [⟨0, 0, 0, 0, none⟩]
  globals := [0, 0, 0, 0, 7]
  strings := [0]

/-- Adding a program to a minimal VM. -/
def addParameters (l : Loaded) : List Action := [.host (.addProgs l true)]

theorem switches_stay_parameters : ∃ (s : Sys) (a b : ProgsState), s.vm.core.progs[0]? = some a ∧
    s.vm.core.progs[1]? = some b ∧
    (s.vm.core.Switched (s.vm.core.switchIn 0 1) 1 a b ofsParm0 parmWords ↔
        25 ≤ b.numGlobals ∧ SharedInside a b) := by
  have test : (Asm.minimal.boot .none .menu).any (fun vm => Asm.parameters.load.any fun l =>
      (vm.start.actsIdleReset .onZero (addParameters l)).any fun s => (s.vm.core.progs[0]?).isSome &&
        (s.vm.core.progs[1]?).isSome) = true := by
    decide +kernel
  obtain ⟨vm, boot, test⟩ := (Option.any_eq_true _ _).mp test
  obtain ⟨l, load, test⟩ := (Option.any_eq_true _ _).mp test
  obtain ⟨s, acts, test⟩ := (Option.any_eq_true _ _).mp test
  obtain ⟨first, second⟩ := Bool.and_eq_true_iff.mp test
  obtain ⟨a, here⟩ := Option.isSome_iff_exists.mp first
  obtain ⟨b, there⟩ := Option.isSome_iff_exists.mp second
  exact ⟨s, a, b, here, there,
    (switches_stay (reachable_boot boot acts) (Core.Plain.refl _) here there).1⟩

/-- A call of the main progs, which has one global, copies its parameters onto the local stack. -/
theorem switch_spills : ¬ ∀ (F : FloatOps) (s : Sys), s.Reachable F → ∀ (core : Core),
    s.vm.core.Plain core → ∀ (src dst : Nat) (a b : ProgsState), core.progs[src]? = some a →
    core.progs[dst]? = some b →
    core.Switched (core.switchIn src dst) dst a b ofsParm0 parmWords := by
  intro claim
  have test : (Asm.minimal.boot .none .menu).any (fun vm => Asm.parameters.load.any fun l =>
      (vm.start.actsIdleReset .onZero (addParameters l)).any fun s =>
        let core := s.vm.core
        (core.progs[0]?).isSome && (core.progs[1]?).isSome &&
          decide ((core.switchIn 1 0).mem.s.get core.mem.lsBase ≠ core.mem.s.get core.mem.lsBase) &&
          decide (0 < core.mem.lsWords)) = true := by
    decide +kernel
  obtain ⟨vm, boot, test⟩ := (Option.any_eq_true _ _).mp test
  obtain ⟨l, load, test⟩ := (Option.any_eq_true _ _).mp test
  obtain ⟨s, acts, test⟩ := (Option.any_eq_true _ _).mp test
  simp only [Bool.and_eq_true, decide_eq_true_eq] at test
  obtain ⟨⟨⟨first, second⟩, changed⟩, stack⟩ := test
  obtain ⟨a, here⟩ := Option.isSome_iff_exists.mp second
  obtain ⟨b, there⟩ := Option.isSome_iff_exists.mp first
  have stays := claim .onZero s (reachable_boot boot acts) s.vm.core (Core.Plain.refl _) 1 0 a b here
    there
  exact changed (stays.localStack _ ⟨Nat.le_refl _, by omega⟩)

end Qcvm

import Qcvm.Vm.Boot

/-!
# The partition of the address space

What a layout comes to for addresses: an address lies in at most one region, `locate` finds the
region an access lies in, and no address of a region is taken for a tagged string reference. Within
region E only the bytes of a block that hold fields can be accessed; the rest of a block is reserved
for fields of later progs.
-/

namespace Qcvm

open Lib

namespace Memory

variable (m : Memory)

/-- The access lies in region S. -/
def InS (p n : Nat) : Prop := p + n ≤ m.s.size

/-- The access lies in region E. -/
def InE (p n : Nat) : Prop := m.eBase ≤ p ∧ p + n ≤ m.eBase + m.e.size

/-- The access lies in the heap. -/
def InH (p n : Nat) : Prop := m.hBase ≤ p ∧ p + n ≤ m.hBase + m.heap.data.size

instance (p n : Nat) : Decidable (m.InS p n) := inferInstanceAs (Decidable (_ ≤ _))
instance (p n : Nat) : Decidable (m.InE p n) := inferInstanceAs (Decidable (_ ∧ _))
instance (p n : Nat) : Decidable (m.InH p n) := inferInstanceAs (Decidable (_ ∧ _))

/-- The access lies in the bytes of one entity block that hold fields. -/
def InFields (p n : Nat) : Prop :=
  m.InE p n ∧ (p - m.eBase) % m.stride + n ≤ m.fieldBytes

/-- The address space is partitioned. -/
structure Partitioned : Prop where
  s_le : m.s.size ≤ m.eBase
  e_size : m.e.size = m.slots.length * m.stride
  slots_le : m.slots.length ≤ m.maxEdicts
  e_end : m.eBase + m.maxEdicts * m.stride ≤ m.hBase
  h_end : m.hBase + m.heap.data.size ≤ 2 ^ 31
  fields_le : m.fieldBytes ≤ m.stride
  /-- An address is in at most one region. -/
  apart : ∀ p, ¬ (m.InS p 1 ∧ m.InE p 1) ∧ ¬ (m.InS p 1 ∧ m.InH p 1) ∧ ¬ (m.InE p 1 ∧ m.InH p 1)
  locate_s : ∀ (p : Word) n, 0 < n → ∀ o, m.locate p n = some (.s o) ↔ o = p.toNat ∧ m.InS p.toNat n
  locate_e : ∀ (p : Word) n, 0 < n → ∀ o e, m.locate p n = some (.e o e) ↔
    o = p.toNat - m.eBase ∧ e = o / m.stride ∧ m.InFields p.toNat n
  locate_h : ∀ (p : Word) n, 0 < n → ∀ o, m.locate p n = some (.h o) ↔
    o = p.toNat - m.hBase ∧ m.InH p.toNat n
  /-- No address of a region is a tagged string reference. -/
  untagged : ∀ p : Word, m.InS p.toNat 1 ∨ m.InE p.toNat 1 ∨ m.InH p.toNat 1 → classify p = .linear p

end Memory

/-- A reference below `2^31` has no tag. -/
lemma classify_of_lt {p : Word} (lt : p.toNat < 2 ^ 31) : classify p = .linear p := by
  have high : p.msb = false := by
    rw [BitVec.msb_eq_decide]
    simpa using lt
  have untagged {tag : Word} (top : tag.msb = true) : p &&& tagMask ≠ tag := by
    intro e
    have same := congrArg BitVec.msb e
    rw [BitVec.msb_and, high, top] at same
    cases same
  unfold classify
  rw [if_neg (untagged rfl), if_neg (untagged rfl)]

namespace Memory.Layout

variable {m : Memory}

lemma e_le (l : m.Layout) : m.eBase + m.e.size ≤ m.hBase := by
  have le := Nat.mul_le_mul_right m.stride l.slots_le_max
  have e_end := l.e_end
  rw [l.e_size]
  omega

lemma h_le (l : m.Layout) : m.hBase + m.heap.data.size ≤ 2 ^ 31 := by
  have heap := l.heap
  have h_end := l.h_end
  unfold Heap.Bounded at heap
  omega

/-- An access within the fields of a block lies in region E. -/
lemma locateEntity_eq_some (l : m.Layout) {p n : Nat} (pos : 0 < n) {loc : Loc} :
    m.locateEntity p n = some loc ↔
      loc = .e (p - m.eBase) ((p - m.eBase) / m.stride) ∧ m.InFields p n := by
  have fields := l.fields_le
  have stride := m.stride_pos
  have size := l.e_size
  have division := Nat.div_add_mod (p - m.eBase) m.stride
  have count := l.toRegions.numEdicts
  unfold locateEntity InFields InE
  dsimp only
  split
  next below =>
    simp only [reduceCtorEq, false_iff, not_and]
    omega
  next above =>
    split
    next ok =>
      rw [count] at ok
      have block := Nat.mul_le_mul_right m.stride (Nat.succ_le_of_lt ok.1)
      rw [Nat.succ_mul, Nat.mul_comm] at block
      simp only [Option.some.injEq]
      constructor
      · rintro rfl
        exact ⟨rfl, ⟨by omega, by omega⟩, ok.2⟩
      · rintro ⟨rfl, -⟩
        rfl
    next bad =>
      simp only [reduceCtorEq, false_iff, not_and]
      rintro - ⟨-, finish⟩ within
      refine bad ⟨?_, within⟩
      rw [count]
      refine Nat.div_lt_of_lt_mul ?_
      rw [Nat.mul_comm, ← size]
      omega

lemma locateHeap_eq_some {p n : Nat} {loc : Loc} :
    m.locateHeap p n = some loc ↔ loc = .h (p - m.hBase) ∧ m.InH p n := by
  unfold locateHeap InH
  split
  next ok =>
    simp only [Option.some.injEq]
    constructor
    · rintro rfl
      exact ⟨rfl, ok.1, by omega⟩
    · rintro ⟨rfl, -⟩
      rfl
  next bad =>
    simp only [reduceCtorEq, false_iff, not_and]
    omega

/-- What `locate` finds. -/
lemma locate_eq_some (l : m.Layout) {p : Word} {n : Nat} (pos : 0 < n) {loc : Loc} :
    m.locate p n = some loc ↔
      (loc = .s p.toNat ∧ m.InS p.toNat n) ∨
      (loc = .e (p.toNat - m.eBase) ((p.toNat - m.eBase) / m.stride) ∧ m.InFields p.toNat n) ∨
      (loc = .h (p.toNat - m.hBase) ∧ m.InH p.toNat n) := by
  have s_le := l.s_le
  have e_le := l.e_le
  have entity : m.locateEntity p.toNat n = some loc ↔ _ := l.locateEntity_eq_some pos
  have heap : m.locateHeap p.toNat n = some loc ↔ _ := locateHeap_eq_some
  have outside : m.InH p.toNat n → ¬ m.InFields p.toNat n := by
    rintro ⟨lo, -⟩ ⟨⟨-, hi⟩, -⟩
    omega
  unfold locate
  split
  next inside =>
    constructor
    · intro e
      cases e
      exact .inl ⟨rfl, inside⟩
    · rintro (⟨rfl, -⟩ | ⟨rfl, ⟨lo, -⟩, -⟩ | ⟨rfl, lo, -⟩)
      · rfl
      · omega
      · omega
  next past =>
    rw [Option.or_eq_some_iff, heap, entity]
    constructor
    · rintro (e | ⟨-, h⟩)
      · exact .inr (.inl e)
      · exact .inr (.inr h)
    · rintro (⟨-, inside⟩ | e | h)
      · exact absurd inside past
      · exact .inl e
      · refine .inr ⟨?_, h⟩
        cases found : m.locateEntity p.toNat n with
        | none => rfl
        | some loc' =>
          exact absurd ((l.locateEntity_eq_some pos).mp found).2 (outside h.2)

/-- A layout partitions the address space. -/
lemma partitioned (l : m.Layout) : m.Partitioned := by
  have s_le := l.s_le
  have e_le := l.e_le
  have h_le := l.h_le
  refine
    { s_le := s_le
      e_size := l.e_size
      slots_le := l.slots_le_max
      e_end := l.e_end
      h_end := h_le
      fields_le := l.fields_le
      apart := ?_
      locate_s := fun p n pos o => ?_
      locate_e := fun p n pos o e => ?_
      locate_h := fun p n pos o => ?_
      untagged := fun p inside => classify_of_lt ?_ }
  · unfold InS InE InH
    omega
  · rw [l.locate_eq_some pos]
    simp
  · rw [l.locate_eq_some pos]
    simp only [reduceCtorEq, false_and, false_or, or_false, Loc.e.injEq]
    constructor
    · rintro ⟨⟨rfl, rfl⟩, inside⟩
      exact ⟨rfl, rfl, inside⟩
    · rintro ⟨rfl, rfl, inside⟩
      exact ⟨⟨rfl, rfl⟩, inside⟩
  · rw [l.locate_eq_some pos]
    simp
  · unfold InS InE InH at inside
    omega

end Memory.Layout

/-- Whatever is reached from a new VM keeps the address space partitioned. -/
theorem addressSpace_partitioned {F : FloatOps} {s : Sys} (r : s.Reachable F) :
    s.vm.core.mem.Partitioned :=
  r.base.layout.mem.partitioned

theorem addressSpace_partitioned_minimal : ∃ vm, Asm.minimal.boot .none .menu = some vm ∧
    vm.core.mem.Partitioned := by
  obtain ⟨vm, e⟩ := Option.isSome_iff_exists.mp
    (show (Asm.minimal.boot .none .menu).isSome = true by decide +kernel)
  exact ⟨vm, e, addressSpace_partitioned (s := vm.start) (reachable_start (F := .onZero) e)⟩

/-- The block of an entity without fields: its addresses are in region E, and `locate` finds
nothing there. -/
theorem locate_misses_padding : ¬ ∀ (F : FloatOps) (s : Sys), s.Reachable F → ∀ p : Word,
    s.vm.core.mem.InE p.toNat 1 → ∃ off e, s.vm.core.mem.locate p 1 = some (.e off e) := by
  intro claim
  have padding : (Asm.minimal.boot .none .menu).any (fun vm =>
      decide (vm.core.mem.InE (BitVec.ofNat 32 vm.core.mem.eBase : Word).toNat 1) &&
        (vm.core.mem.locate (BitVec.ofNat 32 vm.core.mem.eBase) 1).isNone) = true := by
    decide +kernel
  obtain ⟨vm, e, found⟩ := (Option.any_eq_true _ _).mp padding
  rw [Bool.and_eq_true, decide_eq_true_eq] at found
  obtain ⟨off, ent, located⟩ := claim .onZero vm.start (reachable_start e) _ found.1
  have missed : vm.core.mem.locate _ 1 = none := Option.isNone_iff_eq_none.mp found.2
  cases missed.symm.trans located

end Qcvm

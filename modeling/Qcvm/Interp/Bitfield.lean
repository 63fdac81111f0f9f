import Qcvm.Interp.Statement
import Qcvm.Lib.Bitfield

/-!
# Bitfields

The last opcodes of the interpreter (`BITEXTEND_I`, `BITEXTEND_U` and `BITCOPY_I`). A descriptor
holds the width of a field in its low byte and the position above. The arms build shift counts and
masks that are taken modulo 32; here they are the fields of `Lib.Bitfield`, the whole word and the
empty field included, and so inserting and extracting are inverse.
-/

namespace Qcvm

open Lib

/-- The width of the field that a descriptor describes. -/
def fieldWidth (d : Word) : Nat := (d &&& 0xFF).toNat

/-- Its position. -/
def fieldPosition (d : Word) : Nat := (d >>> 8).toNat

/-- The bits of the field. -/
def InField (d : Word) (i : Nat) : Prop :=
  fieldPosition d ≤ i ∧ i < fieldPosition d + fieldWidth d

/-- What `BITEXTEND_U` makes of its operands. -/
def bitExtendU : Word → Word → Word := Arm.bitExtend fun a n => a >>> n

/-- What `BITEXTEND_I` makes of its operands. -/
def bitExtendI : Word → Word → Word := Arm.bitExtend fun a n => a.sshiftRight n

/-- What `BITCOPY_I` makes of its operands. -/
def bitCopied (a d c : Word) : Word :=
  let width := d &&& 0xFF
  let p := (d >>> 8).toNat % 32
  let mask : Word := if width.toNat ≥ 32 then 0xFFFFFFFF else (1 <<< width.toNat) - 1
  c &&& ~~~(mask <<< p) ||| (a &&& mask) <<< p

/-- The arm of an opcode falls through and leaves in operand `C` what `result` makes of the words at
its operands. -/
def Site.Leaves (F : FloatOps) (site : Site) (op : Op) (result : Word → Word → Word → Word) :
    Prop :=
  ∃ arm, operandArm F site op = some arm ∧ ∀ core : Core, arm.run (site.handle F) core =
    (.ok (), core.withS (site.view.set core.mem.s (site.offset .c 0)
      (result (site.view.g core.mem.s (site.offset .a 0))
        (site.view.g core.mem.s (site.offset .b 0)) (site.view.g core.mem.s (site.offset .c 0)))))

section

variable (F : FloatOps) (site : Site)

lemma leaves_bitExtendU : site.Leaves F .bitExtendU fun a d _ => bitExtendU a d :=
  ⟨_, rfl, fun _ => rfl⟩

lemma leaves_bitExtendI : site.Leaves F .bitExtendI fun a d _ => bitExtendI a d :=
  ⟨_, rfl, fun _ => rfl⟩

lemma leaves_bitCopyI : site.Leaves F .bitCopyI bitCopied := ⟨_, rfl, fun _ => rfl⟩

end

variable {a b c d e : Word}

/-! ## The arms in terms of fields -/

/-- An empty field reads as 0. -/
lemma bitExtend_of_empty {shift : Word → Nat → Word} (empty : fieldWidth d = 0) :
    Arm.bitExtend shift a d = 0 := by
  have zero : d &&& 0xFF = 0 := BitVec.eq_of_toNat_eq empty
  exact if_pos zero

/-- The shift counts of a field inside the word are those that take it out. -/
lemma bitExtend_eq {shift : Word → Nat → Word} (pos : 1 ≤ fieldWidth d)
    (fits : fieldWidth d + fieldPosition d ≤ 32) : Arm.bitExtend shift a d
      = shift (a <<< (32 - fieldWidth d - fieldPosition d)) (32 - fieldWidth d) := by
  obtain ⟨width, hw⟩ : ∃ width : Word, d &&& 0xFF = width := ⟨_, rfl⟩
  obtain ⟨p, hp⟩ : ∃ p : Word, d >>> 8 = p := ⟨_, rfl⟩
  unfold Arm.bitExtend fieldWidth fieldPosition at *
  dsimp only
  rw [hw] at pos fits ⊢
  rw [hp] at fits ⊢
  have some : ¬width = 0 := by
    rintro rfl
    exact absurd pos (by decide)
  have down : (32 - width).toNat = 32 - width.toNat :=
    BitVec.toNat_sub_of_le (BitVec.le_def.mpr (Nat.le_trans (Nat.le_add_right _ _) fits))
  have up : (32 - width - p).toNat = 32 - width.toNat - p.toNat := by
    rw [BitVec.toNat_sub_of_le, down]
    rw [BitVec.le_def, down]
    exact Nat.le_sub_of_add_le' fits
  rw [if_neg some, up, down, Nat.mod_eq_of_lt (by omega), Nat.mod_eq_of_lt (by omega)]

lemma bitExtendU_eq (pos : 1 ≤ fieldWidth d) (fits : fieldWidth d + fieldPosition d ≤ 32) :
    bitExtendU a d = (a.extractLsb' (fieldPosition d) (fieldWidth d)).setWidth 32 :=
  (bitExtend_eq pos fits).trans (shiftLeft_ushiftRight (by omega))

lemma bitExtendI_eq (pos : 1 ≤ fieldWidth d) (fits : fieldWidth d + fieldPosition d ≤ 32) :
    bitExtendI a d = (a.extractLsb' (fieldPosition d) (fieldWidth d)).signExtend 32 :=
  (bitExtend_eq pos fits).trans (shiftLeft_sshiftRight pos (by omega))

/-- `BITCOPY_I` replaces a field, whatever the descriptor. -/
lemma bitCopied_eq : bitCopied a d c = insertBits (fieldPosition d % 32) (fieldWidth d) a c := by
  have mask : (if (d &&& 0xFF).toNat ≥ 32 then (0xFFFFFFFF : Word)
      else (1 <<< (d &&& 0xFF).toNat) - 1) = lowBits 32 (fieldWidth d) := by
    split
    next whole => exact allOnes_eq_lowBits whole
    next part => exact shiftLeft_sub_one (Nat.lt_of_not_le part)
  unfold bitCopied insertBits
  dsimp only
  rw [mask]
  rfl

lemma bitCopied_of_empty (empty : fieldWidth d = 0) : bitCopied a d c = c := by
  rw [bitCopied_eq, empty, insertBits_zero]

/-- A field inside the word is at its position. -/
lemma bitCopied_of_fits (fits : fieldWidth d + fieldPosition d ≤ 32) :
    bitCopied a d c = insertBits (fieldPosition d) (fieldWidth d) a c := by
  by_cases empty : fieldWidth d = 0
  · rw [bitCopied_eq, empty, insertBits_zero, insertBits_zero]
  · rw [bitCopied_eq, Nat.mod_eq_of_lt (by omega)]

/-! ## Inserting and extracting -/

/-- Inserting and extracting a field are inverse: what `BITCOPY_I` leaves reads as the low bits of
what was inserted, is as it was outside the field, and two fields apart are replaced in any order;
an empty field changes nothing and reads as 0. -/
theorem bitfields_inverse (F : FloatOps) (site : Site) :
    site.Leaves F .bitCopyI bitCopied ∧
    site.Leaves F .bitExtendU (fun a d _ => bitExtendU a d) ∧
    site.Leaves F .bitExtendI (fun a d _ => bitExtendI a d) ∧
    (∀ a c d : Word, 1 ≤ fieldWidth d → fieldWidth d + fieldPosition d ≤ 32 →
      (bitExtendU (bitCopied a d c) d).toNat = a.toNat % 2 ^ fieldWidth d ∧
      bitExtendI (bitCopied a d c) d = (a.setWidth (fieldWidth d)).signExtend 32 ∧
      ∀ i < 32, ¬InField d i → (bitCopied a d c).getLsbD i = c.getLsbD i) ∧
    (∀ a b c d e : Word, fieldWidth d + fieldPosition d ≤ 32 →
      fieldWidth e + fieldPosition e ≤ 32 → (∀ i, InField d i → ¬InField e i) →
      bitCopied a d (bitCopied b e c) = bitCopied b e (bitCopied a d c)) ∧
    ∀ a c d : Word, fieldWidth d = 0 →
      bitCopied a d c = c ∧ bitExtendU a d = 0 ∧ bitExtendI a d = 0 := by
  refine ⟨leaves_bitCopyI F site, leaves_bitExtendU F site, leaves_bitExtendI F site,
    fun a c d pos fits => ?_, fun a b c d e fits fits' apart => ?_, fun a c d empty => ?_⟩
  · have replaced := extractLsb'_insertBits (a := a) (c := c)
      (by omega : fieldPosition d + fieldWidth d ≤ 32)
    rw [bitExtendU_eq pos fits, bitExtendI_eq pos fits, bitCopied_of_fits fits, replaced]
    refine ⟨?_, rfl, fun i lt outside => ?_⟩
    · have power : 2 ^ fieldWidth d ≤ 2 ^ 32 := Nat.pow_le_pow_right (by decide) (by omega)
      have small : a.toNat % 2 ^ fieldWidth d < 2 ^ fieldWidth d := Nat.mod_lt _ (Nat.two_pow_pos _)
      rw [BitVec.toNat_setWidth, BitVec.toNat_setWidth, Nat.mod_eq_of_lt (by omega)]
    · exact (getLsbD_insertBits lt).trans (if_neg outside)
  · simp only [bitCopied_of_fits fits, bitCopied_of_fits fits']
    exact insertBits_comm apart
  · exact ⟨bitCopied_of_empty empty, bitExtend_of_empty empty, bitExtend_of_empty empty⟩

/-- The top five bits and the whole word; the lowest four bits and the four above them; no bits. -/
theorem bitfields_inverse_top :
    (bitExtendU (bitCopied 0x1F5 0x1B05 7) 0x1B05).toNat = 0x1F5 % 2 ^ fieldWidth 0x1B05 ∧
    bitExtendI (bitCopied 0x1F5 0x0020 7) 0x0020
      = BitVec.signExtend 32 (BitVec.setWidth (fieldWidth 0x0020) (0x1F5 : Word)) ∧
    bitCopied 3 0x0004 (bitCopied 5 0x0404 7) = bitCopied 5 0x0404 (bitCopied 3 0x0004 7) ∧
    bitCopied 3 0x0400 7 = 7 := by
  obtain ⟨-, -, -, inverse, comm, empty⟩ :=
    bitfields_inverse .onZero ⟨.whole, .sentinel, 0, 0, 0, 0⟩
  refine ⟨(inverse 0x1F5 7 0x1B05 (by decide) (by decide)).1,
    (inverse 0x1F5 7 0x0020 (by decide) (by decide)).2.1,
    comm 3 5 7 0x0004 0x0404 (by decide) (by decide) fun i lower upper => ?_,
    (empty 3 7 0x0400 (by decide)).1⟩
  have below : i < 0 + 4 := lower.2
  have above : 4 ≤ i := upper.1
  omega

example : bitExtendI (bitCopied 0x1F5 0x1B05 7) 0x1B05 = -11 := by decide

end Qcvm

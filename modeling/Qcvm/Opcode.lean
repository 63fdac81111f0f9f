import Qcvm.Num

/-!
# The instruction set

The opcode table of `opcode.rs`: every opcode FTE executes (0 to 281) with the kind of each of its
three operands. The table drives decoding (`Op.fromU32`), the load-time operand check
(`Operand.isChecked`) and operand relocation (`Operand.isRelocated`).
-/

namespace Qcvm

/-- How an instruction uses one of its three operands. -/
inductive Operand where
  | global
  | globalIndex
  | jump
  | immediate
  | unused
  deriving DecidableEq, Repr

/-- Whether the load-time check requires the operand to name an existing global. -/
def Operand.isChecked : Operand → Bool
  | .global | .globalIndex | .unused => true
  | .jump | .immediate => false

/-- Whether the operand is stored as a byte offset into the globals block. -/
def Operand.isRelocated : Operand → Bool
  | .global | .unused => true
  | .globalIndex | .jump | .immediate => false

/-- The three operands of a statement. -/
inductive Slot where
  | a
  | b
  | c
  deriving DecidableEq, Repr

/-- An opcode. `bad` stands for statements the loader poisoned and `jumpOutOfRange` for the target
of jumps that leave the statement table; both fault when executed. -/
inductive Op where
  | done | mulF | mulV | mulFV | mulVF | divF | addF | addV | subF | subV | eqF | eqV | eqS | eqE
  | eqFnc | neF | neV | neS | neE | neFnc | leF | geF | ltF | gtF | loadF | loadV | loadS
  | loadEnt | loadFld | loadFnc | address | storeF | storeV | storeS | storeEnt | storeFld
  | storeFnc | storePF | storePV | storePS | storePEnt | storePFld | storePFnc | return | notF
  | notV | notS | notEnt | notFnc | ifI | ifNotI | call0 | call1 | call2 | call3 | call4 | call5
  | call6 | call7 | call8 | state | goto | andF | orF | bitAndF | bitOrF | mulStoreF | mulStoreVF
  | mulStorePF | mulStorePVF | divStoreF | divStorePF | addStoreF | addStoreV | addStorePF
  | addStorePV | subStoreF | subStoreV | subStorePF | subStorePV | fetchGblF | fetchGblV
  | fetchGblS | fetchGblE | fetchGblFnc | cState | cWState | thinkTime | bitSetStoreF
  | bitSetStorePF | bitClrStoreF | bitClrStorePF | rand0 | rand1 | rand2 | randV0 | randV1
  | randV2 | switchF | switchV | switchS | switchE | switchFnc | case | caseRange | call1H
  | call2H | call3H | call4H | call5H | call6H | call7H | call8H | storeI | storeIF | storeFI
  | addI | addFI | addIF | subI | subFI | subIF | convItoF | convFtoI | loadPItoF | loadPFtoI
  | loadI | storePI | storePIF | storePFI | bitAndI | bitOrI | mulI | divI | eqI | neI | ifNotS
  | ifS | notI | divVF | bitXorI | rShiftI | lShiftI | globalAddress | addPIW | loadAF | loadAV
  | loadAS | loadAEnt | loadAFld | loadAFnc | loadAI | storeP | loadP | loadPF | loadPV | loadPS
  | loadPEnt | loadPFld | loadPFnc | loadPI | leI | geI | ltI | gtI | leIF | geIF | ltIF | gtIF
  | leFI | geFI | ltFI | gtFI | eqIF | eqFI | addSF | subS | storePC | loadPC | mulIF | mulFI
  | mulVI | mulIV | divIF | divFI | bitAndIF | bitOrIF | bitAndFI | bitOrFI | andI | orI | andIF
  | orIF | andFI | orFI | neIF | neFI | gStorePI | gStorePF | gStorePEnt | gStorePFld | gStorePS
  | gStorePFnc | gStorePV | gAddress | gLoadI | gLoadF | gLoadFld | gLoadEnt | gLoadS | gLoadFnc
  | boundCheck | unused | push | pop | switchI | gLoadV | ifF | ifNotF | storeFieldV
  | storeFieldF | storeFieldS | storeFieldI | storePI8 | loadPU8 | leU | ltU | divU | rShiftU
  | addI64 | subI64 | mulI64 | divI64 | bitAndI64 | bitOrI64 | bitXorI64 | lShiftI64I
  | rShiftI64I | leI64 | ltI64 | eqI64 | neI64 | leU64 | ltU64 | divU64 | rShiftU64I | storeI64
  | storePI64 | storeFieldI64 | loadI64 | loadAI64 | loadPI64 | convUI64 | convII64 | convI64I
  | convFD | convDF | convI64F | convFI64 | convI64D | convDI64 | addD | subD | mulD | divD | leD
  | ltD | eqD | neD | storePI16 | loadPI16 | loadPU16 | loadPI8 | bitExtendI | bitExtendU
  | bitCopyI | convUF | convFU | convU64D | convDU64 | convU64F | convFU64 | bad | jumpOutOfRange
  deriving DecidableEq, Repr

namespace Op

instance : Inhabited Op := ⟨.bad⟩

/-- Every opcode that can appear in a progs file, in numeric order. -/
def all : List Op :=
  [.done, .mulF, .mulV, .mulFV, .mulVF, .divF, .addF, .addV, .subF, .subV, .eqF, .eqV, .eqS,
   .eqE, .eqFnc, .neF, .neV, .neS, .neE, .neFnc, .leF, .geF, .ltF, .gtF, .loadF, .loadV, .loadS,
   .loadEnt, .loadFld, .loadFnc, .address, .storeF, .storeV, .storeS, .storeEnt, .storeFld,
   .storeFnc, .storePF, .storePV, .storePS, .storePEnt, .storePFld, .storePFnc, .return, .notF,
   .notV, .notS, .notEnt, .notFnc, .ifI, .ifNotI, .call0, .call1, .call2, .call3, .call4, .call5,
   .call6, .call7, .call8, .state, .goto, .andF, .orF, .bitAndF, .bitOrF, .mulStoreF,
   .mulStoreVF, .mulStorePF, .mulStorePVF, .divStoreF, .divStorePF, .addStoreF, .addStoreV,
   .addStorePF, .addStorePV, .subStoreF, .subStoreV, .subStorePF, .subStorePV, .fetchGblF,
   .fetchGblV, .fetchGblS, .fetchGblE, .fetchGblFnc, .cState, .cWState, .thinkTime,
   .bitSetStoreF, .bitSetStorePF, .bitClrStoreF, .bitClrStorePF, .rand0, .rand1, .rand2, .randV0,
   .randV1, .randV2, .switchF, .switchV, .switchS, .switchE, .switchFnc, .case, .caseRange,
   .call1H, .call2H, .call3H, .call4H, .call5H, .call6H, .call7H, .call8H, .storeI, .storeIF,
   .storeFI, .addI, .addFI, .addIF, .subI, .subFI, .subIF, .convItoF, .convFtoI, .loadPItoF,
   .loadPFtoI, .loadI, .storePI, .storePIF, .storePFI, .bitAndI, .bitOrI, .mulI, .divI, .eqI,
   .neI, .ifNotS, .ifS, .notI, .divVF, .bitXorI, .rShiftI, .lShiftI, .globalAddress, .addPIW,
   .loadAF, .loadAV, .loadAS, .loadAEnt, .loadAFld, .loadAFnc, .loadAI, .storeP, .loadP, .loadPF,
   .loadPV, .loadPS, .loadPEnt, .loadPFld, .loadPFnc, .loadPI, .leI, .geI, .ltI, .gtI, .leIF,
   .geIF, .ltIF, .gtIF, .leFI, .geFI, .ltFI, .gtFI, .eqIF, .eqFI, .addSF, .subS, .storePC,
   .loadPC, .mulIF, .mulFI, .mulVI, .mulIV, .divIF, .divFI, .bitAndIF, .bitOrIF, .bitAndFI,
   .bitOrFI, .andI, .orI, .andIF, .orIF, .andFI, .orFI, .neIF, .neFI, .gStorePI, .gStorePF,
   .gStorePEnt, .gStorePFld, .gStorePS, .gStorePFnc, .gStorePV, .gAddress, .gLoadI, .gLoadF,
   .gLoadFld, .gLoadEnt, .gLoadS, .gLoadFnc, .boundCheck, .unused, .push, .pop, .switchI,
   .gLoadV, .ifF, .ifNotF, .storeFieldV, .storeFieldF, .storeFieldS, .storeFieldI, .storePI8,
   .loadPU8, .leU, .ltU, .divU, .rShiftU, .addI64, .subI64, .mulI64, .divI64, .bitAndI64,
   .bitOrI64, .bitXorI64, .lShiftI64I, .rShiftI64I, .leI64, .ltI64, .eqI64, .neI64, .leU64,
   .ltU64, .divU64, .rShiftU64I, .storeI64, .storePI64, .storeFieldI64, .loadI64, .loadAI64,
   .loadPI64, .convUI64, .convII64, .convI64I, .convFD, .convDF, .convI64F, .convFI64, .convI64D,
   .convDI64, .addD, .subD, .mulD, .divD, .leD, .ltD, .eqD, .neD, .storePI16, .loadPI16,
   .loadPU16, .loadPI8, .bitExtendI, .bitExtendU, .bitCopyI, .convUF, .convFU, .convU64D,
   .convDU64, .convU64F, .convFU64]

/-- Decodes an opcode number; unknown numbers are `bad`. -/
def fromU32 (n : Nat) : Op := all.getD n .bad

/-- How the instruction uses its operands `a`, `b` and `c`. -/
def operands : Op → Operand × Operand × Operand
  | .done | .return | .call0 | .call1 | .call2 | .call3 | .call4 | .call5 | .call6 | .call7
  | .call8 =>
    (.global, .unused, .unused)
  | .storeF | .storeV | .storeS | .storeEnt | .storeFld | .storeFnc | .state | .cState | .cWState
  | .thinkTime | .storeI | .storeIF | .storeFI | .storeP | .gStorePI | .gStorePF | .gStorePEnt
  | .gStorePFld | .gStorePS | .gStorePFnc | .gStorePV | .storeI64 =>
    (.global, .global, .unused)
  | .notF | .notV | .notS | .notEnt | .notFnc | .rand1 | .randV1 | .convItoF | .convFtoI
  | .loadPItoF | .loadPFtoI | .notI | .gLoadI | .gLoadF | .gLoadFld | .gLoadEnt | .gLoadS
  | .gLoadFnc | .push | .gLoadV | .convUI64 | .convII64 | .convI64I | .convFD | .convDF
  | .convI64F | .convFI64 | .convI64D | .convDI64 | .convUF | .convFU | .convU64D | .convDU64
  | .convU64F | .convFU64 =>
    (.global, .unused, .global)
  | .ifI | .ifNotI | .switchF | .switchV | .switchS | .switchE | .switchFnc | .case | .ifNotS
  | .ifS | .switchI | .ifF | .ifNotF =>
    (.global, .jump, .unused)
  | .goto =>
    (.jump, .unused, .unused)
  | .fetchGblF | .fetchGblV | .fetchGblS | .fetchGblE | .fetchGblFnc | .globalAddress | .loadAF
  | .loadAV | .loadAS | .loadAEnt | .loadAFld | .loadAFnc | .loadAI | .loadAI64 =>
    (.globalIndex, .global, .global)
  | .rand0 | .randV0 =>
    (.unused, .unused, .global)
  | .caseRange =>
    (.global, .global, .jump)
  | .boundCheck =>
    (.global, .immediate, .immediate)
  | .unused | .pop | .bad | .jumpOutOfRange =>
    (.unused, .unused, .unused)
  | _ => (.global, .global, .global)

/-- The kind of one operand. -/
def operand (op : Op) : Slot → Operand
  | .a => op.operands.1
  | .b => op.operands.2.1
  | .c => op.operands.2.2

/-- For `CALL0` to `CALL8` and `CALL1H` to `CALL8H`, the number of arguments passed. -/
def callArgc : Op → Option Nat
  | .call0 => some 0
  | .call1 | .call1H => some 1
  | .call2 | .call2H => some 2
  | .call3 | .call3H => some 3
  | .call4 | .call4H => some 4
  | .call5 | .call5H => some 5
  | .call6 | .call6H => some 6
  | .call7 | .call7H => some 7
  | .call8 | .call8H => some 8
  | _ => none

/-- Whether the instruction is one of the Hexen 2 `CALLnH` forms. -/
def isHexen2Call : Op → Bool
  | .call1H | .call2H | .call3H | .call4H | .call5H | .call6H | .call7H | .call8H => true
  | _ => false

lemma length_all : all.length = 282 := by decide +kernel

/-- Exactly the numbers past the table decode to `bad`. -/
lemma fromU32_eq_bad {n : Nat} : fromU32 n = .bad ↔ 282 ≤ n := by
  constructor
  · intro e
    by_contra lt
    have mem : fromU32 n ∈ all := by
      rw [fromU32, List.getD_eq_getElem _ _ (by rw [length_all]; omega)]
      exact List.getElem_mem _
    have none_bad : .bad ∉ all := by decide +kernel
    exact none_bad (e ▸ mem)
  · intro le
    rw [fromU32, List.getD_eq_default _ _ (by rw [length_all]; omega)]

end Op

end Qcvm

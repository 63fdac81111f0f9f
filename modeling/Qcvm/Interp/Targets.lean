import Qcvm.Interp.Placed

/-!
# The operands a statement writes

Every opcode writes at one of its operands at most, and always the same number of words: three for a
vector, two for 64 bits, else one. `Op.written` is the table; every operation a statement performs
keeps to it (`within_statement`).
-/

namespace Qcvm

open Lib

/-- The words an operation writes directly at the statement's operands: which operand, and how many
words behind it. -/
@[simp] def Micro.written : Micro → List (Slot × Nat)
  | .set s k _ | .memSet s k _ => [(s, k)]
  | .loadThrough words _ _ => (List.range words).map fun k => (.c, k)
  | .compound _ | .pointerStore (.compound _) => [(.c, 0)]
  | .pointerStore .mulVF | .pointerStore .addV | .pointerStore .subV => [(.c, 0), (.c, 1), (.c, 2)]
  | _ => []

/-- The operand an opcode writes at, and the number of words it writes there. With
`compat.load_i64_zero3`, `zero3`, a load of 64 bits from a bad entity writes three. -/
def Op.written (zero3 : Bool) : Op → Option (Slot × Nat)
  -- stores to globals
  | .storeF | .storeS | .storeEnt | .storeFld | .storeFnc | .storeI | .storeP | .storeIF | .storeFI
  | .mulStoreF | .divStoreF | .addStoreF | .subStoreF | .bitSetStoreF | .bitClrStoreF => some (.b, 1)
  | .storeI64 => some (.b, 2)
  | .storeV | .mulStoreVF | .addStoreV | .subStoreV => some (.b, 3)
  -- vectors
  | .mulFV | .mulVF | .divVF | .addV | .subV | .mulVI | .mulIV | .loadV | .loadPV | .mulStorePVF
  | .addStorePV | .subStorePV | .fetchGblV | .randV0 | .randV1 | .randV2 | .loadAV | .gLoadV =>
    some (.c, 3)
  -- 64 bits
  | .addI64 | .subI64 | .mulI64 | .divI64 | .bitAndI64 | .bitOrI64 | .bitXorI64 | .lShiftI64I
  | .rShiftI64I | .rShiftU64I | .divU64 | .convUI64 | .convII64 | .convFI64 | .convFU64 | .addD
  | .subD | .mulD | .divD | .convFD | .convI64D | .convU64D | .convDI64 | .convDU64 | .loadAI64
  | .loadPI64 => some (.c, 2)
  | .loadI64 => some (.c, if zero3 then 3 else 2)
  -- stores to entities and through pointers, and the opcodes that decide what runs next
  | .storePF | .storePV | .storePS | .storePEnt | .storePFld | .storePFnc | .storePI | .storePI64
  | .storePIF | .storePFI | .storePC | .storePI8 | .storePI16 | .storeFieldF | .storeFieldS
  | .storeFieldI | .storeFieldV | .storeFieldI64 | .bitSetStorePF | .bitClrStorePF | .gStorePI
  | .gStorePF | .gStorePEnt | .gStorePFld | .gStorePS | .gStorePFnc | .gStorePV | .done | .return
  | .call0 | .call1 | .call2 | .call3 | .call4 | .call5 | .call6 | .call7 | .call8 | .call1H
  | .call2H | .call3H | .call4H | .call5H | .call6H | .call7H | .call8H | .ifI | .ifNotI | .ifS
  | .ifNotS | .ifF | .ifNotF | .goto | .state | .cState | .cWState | .thinkTime | .switchF
  | .switchV | .switchS | .switchE | .switchFnc | .switchI | .case | .caseRange | .boundCheck
  | .gAddress | .unused | .pop | .bad | .jumpOutOfRange => none
  -- one word
  | _ => some (.c, 1)

/-- An operation writes at no operand but the given one, and no more words. -/
def Micro.Within (w : Option (Slot × Nat)) (f : Micro) : Prop :=
  ∀ x ∈ f.written, ∃ n, w = some (x.1, n) ∧ x.2 < n

/-- No opcode writes more than three words. -/
lemma Op.written_le {zero3 : Bool} {op : Op} {s : Slot} {n : Nat}
    (e : op.written zero3 = some (s, n)) : n ≤ 3 := by
  cases op <;> cases e <;> first | omega | (cases zero3 <;> decide)

namespace Arm

variable {w : Option (Slot × Nat)} {s : Slot} {n : Nat}

/-- Every operation of an arm keeps to the table. -/
def Keeps {α : Type} (w : Option (Slot × Nat)) (p : Arm α) : Prop :=
  p.All (Micro.Within w) fun _ => True

/-- Arms in sequence write only the words that each may write. -/
lemma keeps_bind {α β : Type} {p : Arm α} {g : α → Arm β} (first : p.Keeps w)
    (rest : ∀ a, (g a).Keeps w) : Keeps w (p >>= g) :=
  first.bind fun a _ => rest a

/-- Two names of what an opcode writes. -/
lemma Keeps.of_eq {α : Type} {v : Option (Slot × Nat)} {p : Arm α} (h : p.Keeps v) (e : v = w) :
    p.Keeps w :=
  e ▸ h

/-- A result alone writes nothing. -/
lemma keeps_pure {α : Type} (a : α) : Keeps w (.pure a : Arm α) := trivial

/-- Reads write nothing. -/
lemma keeps_get (s : Slot) (k : Nat) : (get s k).Keeps w := by simp [Keeps, get, Micro.Within, Micro.written]

/-- A read of a word through memory writes nothing. -/
lemma keeps_memGet (s : Slot) (k : Nat) : (memGet s k).Keeps w := by
  simp [Keeps, memGet, Micro.Within, Micro.written]

/-- Looking at the core writes nothing. -/
lemma keeps_look : look.Keeps w := by simp [Keeps, look, Micro.Within, Micro.written]

/-- A read at an offset writes nothing. -/
lemma keeps_getGlobal (off : Nat) : (getGlobal off).Keeps w := by
  simp [Keeps, getGlobal, Micro.Within, Micro.written]

/-- A write at a fixed offset is no write of an operand. -/
lemma keeps_setGlobal (off : Nat) (v : Word) : (setGlobal off v).Keeps w := by
  simp [Keeps, setGlobal, Micro.Within, Micro.written]

/-- A read through a reference writes no operand. -/
lemma keeps_getRef (k : Nat) : (getRef k).Keeps w := by
  simp [Keeps, getRef, Micro.Within, Micro.written]

/-- A result that may be an error writes nothing. -/
lemma keeps_ofExcept {α : Type} (r : Except ErrorKind α) : Keeps w (.ofExcept r : Arm α) := by
  cases r <;> trivial

/-- A write of word `k` of a slot is one of its first words. -/
lemma keeps_set (k : Nat) (v : Word) (lt : k < n) : (set s k v).Keeps (some (s, n)) := by
  simp [Keeps, set, Micro.Within, Micro.written, lt]

/-- A write of word `k` of a slot through memory is one of its first words. -/
lemma keeps_memSet (k : Nat) (v : Word) (lt : k < n) : (memSet s k v).Keeps (some (s, n)) := by
  simp [Keeps, memSet, Micro.Within, Micro.written, lt]

/-- An operation that writes no operand. -/
lemma keeps_call {α : Type} {f : Micro} {k : f.Answer → Arm α} (none : f.written = [])
    (rest : ∀ r, (k r).Keeps w) : Keeps w (.call f k) := by
  refine ⟨?_, rest⟩
  unfold Micro.Within
  rw [none]
  exact fun _ mem => absurd mem List.not_mem_nil

/-- An arm over several words writes what the arms of the words write. -/
lemma keeps_eachWord {p : Nat → Arm Unit} (n : Nat) (word : ∀ k < n, (p k).Keeps w) :
    (eachWord p n).Keeps w := by
  induction n with
  | zero => exact keeps_pure ()
  | succ n ih => exact keeps_bind (ih fun k lt => word k (by omega)) fun _ => word n (by omega)

/-- An arm over three words writes what the arms of the words write. -/
lemma keeps_each3 {p : Nat → Arm Unit} (word : ∀ k < 3, (p k).Keeps w) : (each3 p).Keeps w :=
  keeps_bind (word 0 (by omega)) fun _ => keeps_bind (word 1 (by omega)) fun _ => word 2 (by omega)

/-- A read of a vector writes nothing. -/
lemma keeps_getV (s : Slot) : (getV s).Keeps w :=
  keeps_bind (keeps_get s 0) fun _ => keeps_bind (keeps_get s 1) fun _ =>
    keeps_bind (keeps_get s 2) fun _ => keeps_pure _

/-- A read of a double word writes nothing. -/
lemma keeps_get64 (s : Slot) : (get64 s).Keeps w :=
  keeps_bind (keeps_get s 0) fun _ => keeps_bind (keeps_get s 1) fun _ => keeps_pure _

/-- A write of a double word is one of the first two words. -/
lemma keeps_set64 (v : DWord) (two : 2 ≤ n) : (set64 s v).Keeps (some (s, n)) :=
  keeps_bind (keeps_set 0 _ (by omega)) fun _ => keeps_set 1 _ (by omega)

/-! ## Arms of operands only -/

/-- Target of `unary`: a word of C. -/
lemma keeps_unary (op : Word → Word) : (unary op).Keeps (some (.c, 1)) :=
  keeps_bind (keeps_get .a 0) fun _ => keeps_set 0 _ (by omega)

/-- Target of `binary`: a word of C. -/
lemma keeps_binary (op : Word → Word → Word) : (binary op).Keeps (some (.c, 1)) :=
  keeps_bind (keeps_get .a 0) fun _ => keeps_bind (keeps_get .b 0) fun _ => keeps_set 0 _ (by omega)

/-- Target of `v3`: a vector of C. -/
lemma keeps_v3 (op : Word → Word → Word) : (v3 op).Keeps (some (.c, 3)) :=
  keeps_each3 fun k lt => keeps_bind (keeps_get .a k) fun _ => keeps_bind (keeps_get .b k) fun _ =>
    keeps_set k _ lt

/-- Target of `vectorScalar`: a vector of C. -/
lemma keeps_vectorScalar (op : Word → Word → Word) : (vectorScalar op).Keeps (some (.c, 3)) :=
  keeps_bind (keeps_get .b 0) fun _ => keeps_each3 fun k lt => keeps_bind (keeps_get .a k) fun _ =>
    keeps_set k _ lt

/-- Target of `scalarVector`: a vector of C. -/
lemma keeps_scalarVector (op : Word → Word → Word) : (scalarVector op).Keeps (some (.c, 3)) :=
  keeps_bind (keeps_get .a 0) fun _ => keeps_each3 fun k lt => keeps_bind (keeps_get .b k) fun _ =>
    keeps_set k _ lt

/-- Target of `vectors`: a word of C. -/
lemma keeps_vectors (op : Word × Word × Word → Word × Word × Word → Word) :
    (vectors op).Keeps (some (.c, 1)) :=
  keeps_bind (keeps_getV .a) fun _ => keeps_bind (keeps_getV .b) fun _ => keeps_set 0 _ (by omega)

/-- Target of `store`: a word of B. -/
lemma keeps_store (op : Word → Word) : (store op).Keeps (some (.b, 1)) :=
  keeps_bind (keeps_get .a 0) fun _ => keeps_set 0 _ (by omega)

/-- Target of `storeCompound`: a word of B. -/
lemma keeps_storeCompound (op : Word → Word → Word) : (storeCompound op).Keeps (some (.b, 1)) :=
  keeps_bind (keeps_get .b 0) fun _ => keeps_bind (keeps_get .a 0) fun _ => keeps_set 0 _ (by omega)

/-- Target of `copyAB`: the copied words of B. -/
lemma keeps_copyAB (words : Nat) : (copyAB words).Keeps (some (.b, words)) :=
  keeps_eachWord words fun k lt => keeps_bind (keeps_get .a k) fun _ => keeps_set k _ lt

/-- Target of `binary64`: a double word of C. -/
lemma keeps_binary64 (op : DWord → DWord → DWord) : (binary64 op).Keeps (some (.c, 2)) :=
  keeps_bind (keeps_get64 .a) fun _ => keeps_bind (keeps_get64 .b) fun _ =>
    keeps_set64 _ (by omega)

/-- Target of `compare64`: a word of C. -/
lemma keeps_compare64 (op : DWord → DWord → Bool) : (compare64 op).Keeps (some (.c, 1)) :=
  keeps_bind (keeps_get64 .a) fun _ => keeps_bind (keeps_get64 .b) fun _ =>
    keeps_set 0 _ (by omega)

/-- Target of `widen64`: a double word of C. -/
lemma keeps_widen64 (op : Word → DWord) : (widen64 op).Keeps (some (.c, 2)) :=
  keeps_bind (keeps_get .a 0) fun _ => keeps_set64 _ (by omega)

/-- Target of `narrow64`: a word of C. -/
lemma keeps_narrow64 (op : DWord → Word) : (narrow64 op).Keeps (some (.c, 1)) :=
  keeps_bind (keeps_get64 .a) fun _ => keeps_set 0 _ (by omega)

/-- Target of `unary64`: a double word of C. -/
lemma keeps_unary64 (op : DWord → DWord) : (unary64 op).Keeps (some (.c, 2)) :=
  keeps_bind (keeps_get64 .a) fun _ => keeps_set64 _ (by omega)

/-! ## Arms that reach memory -/

/-- Target of `compareStrings`: a word of C. -/
lemma keeps_compareStrings (ne : Bool) : (compareStrings ne).Keeps (some (.c, 1)) :=
  keeps_bind (keeps_get .a 0) fun _ => keeps_bind (keeps_get .b 0) fun _ =>
    keeps_call rfl fun _ => keeps_memSet 0 _ (by omega)

/-- Target of `notS`: a word of C. -/
lemma keeps_notS : notS.Keeps (some (.c, 1)) := by
  refine keeps_bind (keeps_get .a 0) fun r => ?_
  split
  next => exact keeps_memSet 0 _ (by omega)
  next => exact keeps_call rfl fun _ => keeps_memSet 0 _ (by omega)

/-- Target of `loadField`: a word of C. -/
lemma keeps_loadField : loadField.Keeps (some (.c, 1)) := by
  refine keeps_bind (keeps_get .a 0) fun e => keeps_bind (keeps_get .b 0) fun f =>
    keeps_bind keeps_look fun core => ?_
  split
  next => exact keeps_set 0 _ (by omega)
  next => exact keeps_call rfl fun _ => keeps_memSet 0 _ (by omega)

/-- Target of `loadV`: a vector of C. -/
lemma keeps_loadV : loadV.Keeps (some (.c, 3)) := by
  refine keeps_bind (keeps_get .a 0) fun e => keeps_bind (keeps_get .b 0) fun f =>
    keeps_bind keeps_look fun core => ?_
  split
  next => exact keeps_each3 fun k lt => keeps_set k _ lt
  next =>
    refine keeps_call rfl fun _ => keeps_eachWord _ fun k lt => keeps_memSet k _ ?_
    split at lt <;> omega

/-- Target of `address`: a word of C. -/
lemma keeps_address : address.Keeps (some (.c, 1)) := by
  refine keeps_bind (keeps_get .a 0) fun e => keeps_bind (keeps_get .b 0) fun f =>
    keeps_bind keeps_look fun core => ?_
  dsimp only
  split
  next => exact keeps_set 0 _ (by omega)
  next =>
    split
    next => exact keeps_call rfl fun _ => keeps_pure ()
    next =>
      split
      next =>
        exact keeps_bind (keeps_memSet 0 _ (by omega)) fun _ => keeps_call rfl fun _ => keeps_pure ()
      next => exact keeps_memSet 0 _ (by omega)

/-- The stores through pointers read their operands only. -/
lemma keeps_storeP (words : Nat) : (storeP words).Keeps w := by
  have stored (v0 v1 v2 : Word) : (do
      let base ← get .b 0
      let idx ← get .c 0
      .call (.storeThrough base (idx * 4) (wordsBytes ([v0, v1, v2].take words))) .ofExcept :
      Arm Unit).Keeps w :=
    keeps_bind (keeps_get .b 0) fun _ => keeps_bind (keeps_get .c 0) fun _ =>
      keeps_call rfl fun r => keeps_ofExcept r
  refine keeps_bind (keeps_get .a 0) fun v0 => ?_
  dsimp only
  split
  next =>
    refine keeps_bind (keeps_get .a 1) fun v1 => ?_
    split
    next => exact keeps_bind (keeps_get .a 2) fun v2 => stored v0 v1 v2
    next => exact stored v0 v1 0
  next =>
    change Keeps w (if 2 < words then _ else _ : Arm Unit)
    split
    next => exact keeps_bind (keeps_get .a 2) fun v2 => stored v0 0 v2
    next => exact stored v0 0 0

/-- Target of `storePBytes`: no operand. -/
lemma keeps_storePBytes (scale : Word) (bytes : Word → List Byte) :
    (storePBytes scale bytes).Keeps w :=
  keeps_bind (keeps_get .a 0) fun _ => keeps_bind (keeps_get .b 0) fun _ =>
    keeps_bind (keeps_get .c 0) fun _ => keeps_call rfl fun r => keeps_ofExcept r

/-- Target of `storePI64`: no operand. -/
lemma keeps_storePI64 : storePI64.Keeps w :=
  keeps_bind (keeps_get .b 0) fun _ => keeps_bind (keeps_get .c 0) fun _ =>
    keeps_bind (keeps_get .a 0) fun _ => keeps_bind (keeps_get .a 1) fun _ =>
      keeps_call rfl fun r => keeps_ofExcept r

/-- Target of `loadP`: the loaded words of C. -/
lemma keeps_loadP (words : Nat) : (loadP words).Keeps (some (.c, words)) := by
  refine keeps_bind (keeps_get .a 0) fun base => keeps_bind (keeps_get .b 0) fun idx =>
    ⟨fun x mem => ?_, fun r => keeps_ofExcept r⟩
  obtain ⟨k, lt, rfl⟩ := List.mem_map.mp mem
  exact ⟨words, rfl, List.mem_range.mp lt⟩

/-- Target of `loadPBytes`: a word of C. -/
lemma keeps_loadPBytes (count : Nat) (index : Word → Word) (value : List Byte → Word) :
    (loadPBytes count index value).Keeps (some (.c, 1)) :=
  keeps_bind (keeps_get .a 0) fun _ => keeps_bind (keeps_get .b 0) fun _ =>
    keeps_call rfl fun r => keeps_bind (keeps_ofExcept r) fun _ => keeps_memSet 0 _ (by omega)

/-- Target of `loadPI64`: a double word of C. -/
lemma keeps_loadPI64 : loadPI64.Keeps (some (.c, 2)) :=
  keeps_bind (keeps_get .a 0) fun _ => keeps_bind (keeps_get .b 0) fun _ =>
    keeps_call rfl fun r => keeps_bind (keeps_ofExcept r) fun _ =>
      keeps_bind (keeps_memSet 0 _ (by omega)) fun _ => keeps_memSet 1 _ (by omega)

/-- Target of `loadPConv`: a word of C. -/
lemma keeps_loadPConv (op : Word → Word) : (loadPConv op).Keeps (some (.c, 1)) := by
  refine keeps_bind (keeps_get .a 0) fun p => keeps_bind keeps_look fun core => ?_
  split
  next => exact keeps_memSet 0 _ (by omega)
  next => trivial

/-- Target of `fetchGbl`: the fetched words of C. -/
lemma keeps_fetchGbl (F : FloatOps) (site : Site) (stride : Nat) :
    (fetchGbl F site stride).Keeps (some (.c, stride)) := by
  refine keeps_bind (keeps_memGet .b 0) fun f => ?_
  dsimp only
  split
  next => trivial
  next =>
    refine keeps_bind keeps_look fun core => ?_
    split
    next => trivial
    next => exact keeps_eachWord stride fun k lt => keeps_bind keeps_look fun _ => keeps_memSet k _ lt

/-- Target of `rand`: the drawn words of C. -/
lemma keeps_rand (F : FloatOps) (steps : Word) {k : Nat} {op : Word → Arm Word} (lt : k < n)
    (value : ∀ r, (op r).Keeps (some (.c, n))) : (rand F steps k op).Keeps (some (.c, n)) :=
  keeps_call rfl fun _ => keeps_bind (value _) fun _ => keeps_memSet k _ lt

/-- A random number below a bound writes nothing. -/
lemma keeps_scaled (F : FloatOps) (k : Nat) (r : Word) : (scaled F k r).Keeps w :=
  keeps_bind (keeps_memGet .a k) fun _ => keeps_pure _

/-- A random number between two bounds writes nothing. -/
lemma keeps_between (F : FloatOps) (k : Nat) (r : Word) : (between F k r).Keeps w :=
  keeps_bind (keeps_memGet .a k) fun _ => keeps_bind (keeps_memGet .b k) fun _ => keeps_pure _

/-- Target of an indexed load: the loaded words of C. -/
lemma keeps_loadIndexed (i words : Nat) : (loadIndexed i words).Keeps (some (.c, words)) :=
  keeps_eachWord words fun k lt => keeps_bind (keeps_getGlobal _) fun _ => keeps_set k _ lt

/-- Target of `loadA`: the loaded words of C. -/
lemma keeps_loadA (site : Site) (words : Nat) : (loadA site words).Keeps (some (.c, words)) := by
  refine keeps_bind (keeps_get .b 0) fun b => ?_
  dsimp only
  split
  next => trivial
  next => exact keeps_loadIndexed _ _

/-- Target of `gLoad`: the loaded words of C. -/
lemma keeps_gLoad (site : Site) (words : Nat) : (gLoad site words).Keeps (some (.c, words)) := by
  refine keeps_bind (keeps_get .a 0) fun a => ?_
  dsimp only
  split
  next => trivial
  next => exact keeps_loadIndexed _ _

/-- Globals stored to by an index are not written at an operand. -/
lemma keeps_gStore (site : Site) (words : Nat) : (gStore site words).Keeps w := by
  refine keeps_bind (keeps_get .b 0) fun b => ?_
  dsimp only
  split
  next => trivial
  next =>
    exact keeps_eachWord words fun k _ => keeps_bind (keeps_get .a k) fun _ => keeps_setGlobal _ _

/-- Target of `globalAddress`: a word of C. -/
lemma keeps_globalAddress (site : Site) : (globalAddress site).Keeps (some (.c, 1)) :=
  keeps_bind (keeps_get .b 0) fun _ => keeps_set 0 _ (by omega)

/-- Target of `boundCheck`: no operand. -/
lemma keeps_boundCheck (site : Site) : (boundCheck site).Keeps w := by
  refine keeps_bind (keeps_get .a 0) fun v => ?_
  split
  next => trivial
  next => exact keeps_pure ()

/-- Target of `push`: a word of C. -/
lemma keeps_push : push.Keeps (some (.c, 1)) := by
  refine keeps_bind (keeps_get .a 0) fun words => keeps_bind keeps_look fun core => ?_
  dsimp only
  split
  next => trivial
  next => exact keeps_call rfl fun _ => keeps_memSet 0 _ (by omega)

end Arm

section Table

variable {F : FloatOps} {site : Site} {exitDepth : Nat} {zero3 : Bool}

open Arm

/-- An arm on operands alone writes only the words that its opcode has as target. -/
lemma keeps_operandArm {op : Op} {p : Arm Unit} (e : operandArm F site op = some p) :
    p.Keeps (op.written zero3) := by
  cases op <;> cases e <;>
    (with_reducible first
      | refine (keeps_binary _).of_eq ?_
      | refine (keeps_unary _).of_eq ?_
      | refine (keeps_store _).of_eq ?_
      | refine (keeps_storeCompound _).of_eq ?_
      | refine (keeps_v3 _).of_eq ?_
      | refine (keeps_vectorScalar _).of_eq ?_
      | refine (keeps_scalarVector _).of_eq ?_
      | refine (keeps_vectors _).of_eq ?_
      | refine (keeps_copyAB _).of_eq ?_
      | refine (keeps_binary64 _).of_eq ?_
      | refine (keeps_compare64 _).of_eq ?_
      | refine (keeps_widen64 _).of_eq ?_
      | refine (keeps_narrow64 _).of_eq ?_
      | refine (keeps_unary64 _).of_eq ?_
      | refine (keeps_globalAddress site).of_eq ?_
      | skip) <;> try rfl
  case notV.refl => exact keeps_bind (keeps_getV .a) fun _ => keeps_set 0 _ (by omega)
  case mulStoreVF.refl =>
    exact keeps_bind (keeps_get .a 0) fun _ => keeps_each3 fun k lt =>
      keeps_bind (keeps_get .b k) fun _ => keeps_set k _ lt
  case addStoreV.refl | subStoreV.refl =>
    exact keeps_each3 fun k lt => keeps_bind (keeps_get .b k) fun _ =>
      keeps_bind (keeps_get .a k) fun _ => keeps_set k _ lt
  case lShiftI64I.refl | rShiftI64I.refl | rShiftU64I.refl =>
    exact keeps_bind (keeps_get64 .a) fun _ => keeps_bind (keeps_get .b 0) fun _ =>
      keeps_set64 _ (by omega)
  case bitCopyI.refl =>
    exact keeps_bind (keeps_get .a 0) fun _ => keeps_bind (keeps_get .b 0) fun _ =>
      keeps_bind (keeps_get .c 0) fun _ => keeps_set 0 _ (by omega)

/-- An arm that goes through memory writes only the words that its opcode has as target. -/
lemma keeps_memoryArm {op : Op} {p : Arm Unit} (e : memoryArm F site op = some p)
    (other : op ≠ .loadI64) : p.Keeps (op.written zero3) := by
  cases op <;> cases e <;>
    (with_reducible first
      | refine keeps_loadField.of_eq ?_
      | refine keeps_storePBytes _ _
      | refine keeps_storeP _
      | refine (keeps_loadPBytes _ _ _).of_eq ?_
      | refine (keeps_loadP _).of_eq ?_
      | refine (keeps_loadA site _).of_eq ?_
      | refine (keeps_gLoad site _).of_eq ?_
      | refine keeps_gStore site _
      | refine (keeps_fetchGbl F site _).of_eq ?_
      | refine (keeps_compareStrings _).of_eq ?_
      | refine keeps_notS.of_eq ?_
      | refine keeps_loadV.of_eq ?_
      | refine keeps_address.of_eq ?_
      | refine keeps_storePI64
      | refine keeps_loadPI64.of_eq ?_
      | refine (keeps_loadPConv _).of_eq ?_
      | refine keeps_boundCheck site
      | refine keeps_push.of_eq ?_
      | skip) <;> try rfl
  case loadI64.refl => exact absurd rfl other
  case storeFieldF.refl | storeFieldS.refl | storeFieldI.refl | storeFieldV.refl |
      storeFieldI64.refl =>
    exact keeps_call rfl fun _ => keeps_pure ()
  case mulStorePF.refl | divStorePF.refl | addStorePF.refl | subStorePF.refl | mulStorePVF.refl |
      addStorePV.refl | subStorePV.refl =>
    refine ⟨fun x mem => ?_, fun r => keeps_ofExcept r⟩
    simp only [Micro.written, List.mem_cons, List.not_mem_nil, or_false] at mem
    rcases mem with rfl | rfl | rfl <;> exact ⟨_, rfl, by omega⟩
  case bitSetStorePF.refl | bitClrStorePF.refl => exact keeps_call rfl fun r => keeps_ofExcept r
  case gAddress.refl | unused.refl | pop.refl | bad.refl | jumpOutOfRange.refl => trivial
  case rand0.refl => exact keeps_rand F _ (by omega) fun _ => keeps_pure _
  case rand1.refl => exact keeps_rand F _ (by omega) (keeps_scaled F 0)
  case rand2.refl => exact keeps_rand F _ (by omega) (keeps_between F 0)
  case randV0.refl => exact keeps_each3 fun k lt => keeps_rand F _ lt fun _ => keeps_pure _
  case randV1.refl => exact keeps_each3 fun k lt => keeps_rand F _ lt (keeps_scaled F k)
  case randV2.refl => exact keeps_each3 fun k lt => keeps_rand F _ lt (keeps_between F k)

/-- What follows the reads of `LOAD_I64`: the configuration decides how much of a bad load is
zeroed. -/
lemma keeps_loadI64 (core : Core) (e f : Word) :
    Keeps (some (.c, if core.config.compat.loadI64Zero3 then 3 else 2))
      (match core.mem.entField 8 e f with
        | some field => set64 .c (join64 (wordOf field 0) (wordOf field 1))
        | none =>
          let words := if e.toNat < core.mem.numEdicts then 1
            else if core.config.compat.loadI64Zero3 then 3 else 2
          .call (.badFieldAccess e f) fun _ => eachWord (fun k => memSet .c k 0) words : Arm Unit) := by
  have two : 2 ≤ if core.config.compat.loadI64Zero3 then 3 else 2 := by split <;> omega
  cases core.mem.entField 8 e f with
  | some field => exact keeps_set64 _ two
  | none =>
    refine keeps_call (f := .badFieldAccess e f) rfl fun _ => keeps_eachWord _ fun k lt =>
      keeps_memSet k 0 ?_
    split at lt
    next => omega
    next => exact lt

/-- `loadI64` writes two words of C, or three under `load_i64_zero3`. -/
lemma within_loadI64 {core t : Core} {f : Micro}
    (mem : (f, t) ∈ loadI64.trace (site.handle F) core) :
    f.Within (Op.written core.config.compat.loadI64Zero3 .loadI64) := by
  have read (f : Micro) (none : f.written = []) :
      f.Within (Op.written core.config.compat.loadI64Zero3 .loadI64) := by
    unfold Micro.Within
    rw [none]
    exact fun _ mem => absurd mem List.not_mem_nil
  rcases List.mem_cons.mp mem with here | mem
  · cases here
    exact read _ rfl
  rcases List.mem_cons.mp mem with here | mem
  · cases here
    exact read _ rfl
  rcases List.mem_cons.mp mem with here | mem
  · cases here
    exact read _ rfl
  · exact (Prog.of_mem_trace (I := fun _ => True) (keeps_loadI64 core.hideLoop _ _)
      (fun _ _ _ => trivial) trivial mem).1

/-- A control arm writes no operand. -/
lemma keeps_controlArm {op : Op} (w : Option (Slot × Nat)) :
    (controlArm F site exitDepth op).Keeps w := by
  have branch (cond : Word → Bool) : (Arm.branch site cond).Keeps w :=
    keeps_bind (keeps_get .a 0) fun _ => keeps_pure _
  have switch (kind : SwitchKind) : (Arm.switch site kind).Keeps w :=
    keeps_call rfl fun _ => keeps_pure _
  have two {g : Word → Word → Arm Outcome} (rest : ∀ a b, (g a b).Keeps w) :
      Keeps w (do
        let a ← get .a 0
        let b ← get .b 0
        g a b) :=
    keeps_bind (keeps_get .a 0) fun a => keeps_bind (keeps_get .b 0) fun b => rest a b
  have hit (kind : SwitchKind) : (Arm.caseHit F kind).Keeps w := by
    cases kind with
    | float => exact keeps_bind (keeps_getRef 0) fun _ => keeps_bind (keeps_get .a 0) fun _ => keeps_pure _
    | int => exact keeps_bind (keeps_getRef 0) fun _ => keeps_bind (keeps_get .a 0) fun _ => keeps_pure _
    | string =>
      exact keeps_bind (keeps_getRef 0) fun _ => keeps_bind (keeps_get .a 0) fun _ =>
        keeps_call rfl fun _ => keeps_pure _
    | vector =>
      exact keeps_bind (keeps_getRef 0) fun _ => keeps_bind (keeps_getRef 1) fun _ =>
        keeps_bind (keeps_getRef 2) fun _ => keeps_bind (keeps_getV .a) fun _ => keeps_pure _
  have inRange (kind : SwitchKind) : (Arm.caseRangeHit F kind).Keeps w := by
    cases kind with
    | float =>
      exact keeps_bind (keeps_getRef 0) fun _ => keeps_bind (keeps_get .a 0) fun _ =>
        keeps_bind (keeps_get .b 0) fun _ => keeps_pure _
    | int =>
      exact keeps_bind (keeps_getRef 0) fun _ => keeps_bind (keeps_get .a 0) fun _ =>
        keeps_bind (keeps_get .b 0) fun _ => keeps_pure _
    | string => trivial
    | vector =>
      exact keeps_bind (keeps_getRef 0) fun _ => keeps_bind (keeps_getRef 1) fun _ =>
        keeps_bind (keeps_getRef 2) fun _ => keeps_bind (keeps_getV .a) fun _ =>
          keeps_bind (keeps_getV .b) fun _ => keeps_pure _
  have paid (after : Arm After) : Keeps w (pure (.charge after) : Arm Outcome) := trivial
  unfold controlArm
  split
  all_goals first
    | exact branch _
    | exact switch _
    | exact paid _
    | exact two fun _ _ => keeps_pure _
    | exact two fun _ _ => keeps_bind keeps_look fun _ => keeps_pure _
    | exact keeps_bind keeps_look fun _ => keeps_bind (hit _) fun _ => keeps_pure _
    | exact keeps_bind keeps_look fun _ => keeps_bind (inRange _) fun _ => keeps_pure _

/-- Every operation a statement performs keeps to the table. -/
theorem within_statement {core t : Core} {f : Micro}
    (mem : (f, t) ∈ (statement F site exitDepth).trace (site.handle F) core) :
    f.Within (site.st.op.written core.config.compat.loadI64Zero3) := by
  have keeps {α : Type} {p : Arm α} (h : p.Keeps (site.st.op.written core.config.compat.loadI64Zero3))
      (mem : (f, t) ∈ p.trace (site.handle F) core) :=
    (Prog.of_mem_trace (I := fun _ => True) h (fun _ _ _ => trivial) trivial mem).1
  have falls {p : Arm Unit} (h : p.Keeps (site.st.op.written core.config.compat.loadI64Zero3)) :
      Keeps (site.st.op.written core.config.compat.loadI64Zero3) (Arm.falls p) :=
    keeps_bind h fun _ => keeps_pure _
  unfold statement at mem
  dsimp only at mem
  cases operands : operandArm F site site.st.op with
  | some p =>
    rw [operands] at mem
    exact keeps (falls (keeps_operandArm operands)) mem
  | none =>
    cases memory : memoryArm F site site.st.op with
    | some p =>
      rw [operands, memory] at mem
      by_cases wide : site.st.op = .loadI64
      · rw [wide] at memory ⊢
        cases memory
        change (f, t) ∈ (Prog.bind loadI64 fun _ => .pure Outcome.next).trace _ _ at mem
        rw [Prog.trace_bind] at mem
        rcases List.mem_append.mp mem with mem | mem
        · exact within_loadI64 mem
        · split at mem <;> exact absurd mem List.not_mem_nil
      · exact keeps (falls (keeps_memoryArm memory wide)) mem
    | none =>
      rw [operands, memory] at mem
      exact keeps (keeps_controlArm _) mem

/-- What a statement does once it is paid for writes no operand. -/
lemma keeps_charged {after : Arm After} (charged : site.Charged exitDepth after)
    (w : Option (Slot × Nat)) : after.Keeps w := by
  have globals (s : Slot) (off : Nat) : (copyToGlobals s off).Keeps w :=
    keeps_each3 fun k _ => keeps_bind (keeps_get s k) fun _ => keeps_setGlobal _ _
  cases charged with
  | next => trivial
  | goto => trivial
  | leave => exact keeps_bind (globals .a ofsReturn) fun _ => keeps_call rfl fun _ => trivial
  | dispatch =>
    have arguments : (passArguments site.st.op).Keeps w := by
      unfold passArguments
      dsimp only
      split
      next =>
        split
        next => exact keeps_bind (globals .c ofsParm1) fun _ => globals .b ofsParm0
        next => exact globals .b ofsParm0
      next => trivial
    refine keeps_bind arguments fun _ => keeps_bind (keeps_get .a 0) fun fv => keeps_call rfl fun _ =>
      keeps_bind keeps_look fun core => ?_
    split
    next => exact keeps_call rfl fun r => keeps_bind (keeps_ofExcept r) fun _ => trivial
    all_goals trivial

end Table

end Qcvm

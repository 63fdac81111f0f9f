import Qcvm.Interp.Run

/-!
# What statements reach

What an operation of a statement may reach beside memory behind pointers: up to three words at an
operand that names a global, globals reached by a checked index, and the slots of the calling
convention. Every opcode keeps to it (`placed_statement`); what an opcode does once it is paid for is
one of four things (`Charged`).
-/

namespace Qcvm

open Lib

/-- The slots of RETURN, and those of PARM0 and PARM1 a call passes arguments in. -/
def Op.ReachesSlot (op : Op) (off : Nat) : Prop :=
  (ofsReturn ≤ off ∧ off ≤ ofsReturn + 8) ∨
    op.isHexen2Call = true ∧
      ((ofsParm0 ≤ off ∧ off ≤ ofsParm0 + 8) ∨
        2 ≤ op.callArgc.getD 0 ∧ ofsParm1 ≤ off ∧ off ≤ ofsParm1 + 8)

namespace Site

variable (site : Site)

/-- The operand names a global. -/
def Names (s : Slot) : Prop := site.st.op.operand s = .global

variable {site} in
/-- A slot that the opcode uses as a global offset names three words of the globals. -/
lemma names {op : Op} {s : Slot} (here : site.st.op = op) (kind : op.operand s = .global) :
    site.Names s := by
  rw [Names, here]
  exact kind

/-- What an operation of a statement may reach. -/
@[simp] def Placed : Micro → Prop
  | .get s k | .set s k _ | .memGet s k | .memSet s k _ => k < 3 ∧ site.Names s
  | .getGlobal off => off + 4 ≤ 4 * site.ng
  | .setGlobal off _ => off + 4 ≤ 4 * site.ng ∨ site.st.op.ReachesSlot off
  | .getRef k => k < 3
  | .storeField words => (0 < words ∧ words ≤ 3) ∧ site.Names .a ∧ site.Names .b ∧ site.Names .c
  | .storeThrough _ _ bytes => bytes ≠ []
  | .loadThrough words _ _ => (0 < words ∧ words ≤ 3) ∧ site.Names .c
  | .compound _ | .pointerStore _ => site.Names .a ∧ site.Names .b ∧ site.Names .c
  | .setSwitch _ => site.Names .a
  | .enter .. | .leave => False
  | _ => True

/-- What an operation of a call may reach: the same, and the function it enters. -/
def Calls (f : Micro) : Prop :=
  site.Placed f ∨ ∃ prnum index, f = .enter prnum index (wrappingAdd site.pc 1)

/-- What is left of a statement once it is paid for. -/
inductive Charged (exitDepth : Nat) : Arm After → Prop where
  | next : Charged exitDepth (.pure .next)
  | goto (s : Slot) (jump : site.st.op.operand s = .jump) :
    Charged exitDepth (.pure (.goto (site.st.operand s)))
  | leave (names : site.Names .a) : Charged exitDepth (.leaveFunction exitDepth)
  | dispatch (call : site.st.op.callArgc.isSome) : Charged exitDepth (.dispatch site)

/-- How a statement may end, or be charged; the sentinel only fails. -/
def Ends (exitDepth : Nat) : Outcome → Prop
  | .next | .stateOp _ => site.st.op ≠ .jumpOutOfRange
  | .charge after => site.st.op ≠ .jumpOutOfRange ∧ site.Charged exitDepth after

end Site

namespace Arm

variable {site : Site} {Q : Unit → Prop}

/-- An arm over several words is placed if the arm of each word is. -/
lemma all_eachWord {p : Nat → Arm Unit} {n : Nat} (word : ∀ k < n, (p k).All site.Placed fun _ => True)
    (q : Q ()) : (eachWord p n).All site.Placed Q := by
  induction n generalizing Q with
  | zero => exact q
  | succ n ih =>
    exact (ih (Q := fun _ => True) (fun k lt => word k (by omega)) trivial).bind
      fun _ _ => (word n (by omega)).mono (fun _ h => h) fun _ _ => q

/-- An arm over three words is placed if the arm of each word is. -/
lemma all_each3 {p : Nat → Arm Unit} (word : ∀ k < 3, (p k).All site.Placed fun _ => True)
    (q : Q ()) : (each3 p).All site.Placed Q := by
  refine (word 0 (by omega)).bind fun _ _ => ?_
  refine (word 1 (by omega)).bind fun _ _ => ?_
  exact (word 2 (by omega)).mono (fun _ h => h) fun _ _ => q

/-- A result that needs no access is placed. -/
lemma all_ofExcept {α : Type} {Q : α → Prop} (r : Except ErrorKind α) (q : ∀ a, Q a) :
    (Prog.ofExcept r : Arm α).All site.Placed Q := by
  cases r with
  | ok a => exact q a
  | error e => trivial

/-! ## Arms of operands only -/

/-- A read of a word of a slot is placed if the slot names globals. -/
lemma all_get {s : Slot} {k : Nat} {Q : Word → Prop} (lt : k < 3) (names : site.Names s)
    (q : ∀ v, Q v) : (get s k).All site.Placed Q :=
  ⟨⟨lt, names⟩, q⟩

/-- A write of a word of a slot is placed if the slot names globals. -/
lemma all_set {s : Slot} {k : Nat} (v : Word) (lt : k < 3) (names : site.Names s) (q : Q ()) :
    (set s k v).All site.Placed Q :=
  ⟨⟨lt, names⟩, fun _ => q⟩

/-- Form of `unary`: it reads A and writes C. -/
lemma all_unary (op : Word → Word) (a : site.Names .a) (c : site.Names .c) (q : Q ()) :
    (unary op).All site.Placed Q :=
  (all_get (Nat.zero_lt_succ _) a fun _ => trivial).bind fun v (_ : True) =>
    all_set (op v) (Nat.zero_lt_succ _) c q

/-- Form of `binary`: it reads A and B and writes C. -/
lemma all_binary (op : Word → Word → Word) (a : site.Names .a) (b : site.Names .b)
    (c : site.Names .c) (q : Q ()) : (binary op).All site.Placed Q :=
  (all_get (Nat.zero_lt_succ _) a fun _ => trivial).bind fun v (_ : True) =>
    (all_get (Nat.zero_lt_succ _) b fun _ => trivial).bind fun w (_ : True) =>
      all_set (op v w) (Nat.zero_lt_succ _) c q

/-- Form of `store`: it reads A and writes B. -/
lemma all_store (op : Word → Word) (a : site.Names .a) (b : site.Names .b) (q : Q ()) :
    (store op).All site.Placed Q :=
  (all_get (Nat.zero_lt_succ _) a fun _ => trivial).bind fun v (_ : True) =>
    all_set (op v) (Nat.zero_lt_succ _) b q

/-- Form of `storeCompound`: it reads A and B and writes B. -/
lemma all_storeCompound (op : Word → Word → Word) (a : site.Names .a) (b : site.Names .b)
    (q : Q ()) : (storeCompound op).All site.Placed Q :=
  (all_get (Nat.zero_lt_succ _) b fun _ => trivial).bind fun v (_ : True) =>
    (all_get (Nat.zero_lt_succ _) a fun _ => trivial).bind fun w (_ : True) =>
      all_set (op v w) (Nat.zero_lt_succ _) b q

/-- Form of `v3`: it reads the vectors A and B and writes C. -/
lemma all_v3 (op : Word → Word → Word) (a : site.Names .a) (b : site.Names .b) (c : site.Names .c)
    (q : Q ()) : (v3 op).All site.Placed Q :=
  all_each3 (fun _ lt => (all_get lt a fun _ => trivial).bind fun v (_ : True) =>
    (all_get lt b fun _ => trivial).bind fun w (_ : True) => all_set (op v w) lt c trivial) q

/-- Form of `vectorScalar`: it reads a vector A and a word B and writes C. -/
lemma all_vectorScalar (op : Word → Word → Word) (a : site.Names .a) (b : site.Names .b)
    (c : site.Names .c) (q : Q ()) : (vectorScalar op).All site.Placed Q :=
  (all_get (Nat.zero_lt_succ _) b fun _ => trivial).bind fun f (_ : True) =>
    all_each3 (fun _ lt => (all_get lt a fun _ => trivial).bind fun v (_ : True) =>
      all_set (op v f) lt c trivial) q

/-- Form of `scalarVector`: it reads a word A and a vector B and writes C. -/
lemma all_scalarVector (op : Word → Word → Word) (a : site.Names .a) (b : site.Names .b)
    (c : site.Names .c) (q : Q ()) : (scalarVector op).All site.Placed Q :=
  (all_get (Nat.zero_lt_succ _) a fun _ => trivial).bind fun f (_ : True) =>
    all_each3 (fun _ lt => (all_get lt b fun _ => trivial).bind fun v (_ : True) =>
      all_set (op f v) lt c trivial) q

/-- A read of a vector is placed if the slot names globals. -/
lemma all_getV {s : Slot} {Q : Word × Word × Word → Prop} (a : site.Names s) (q : ∀ v, Q v) :
    (getV s).All site.Placed Q := by
  simp [getV, get, Site.Placed, a, q]

/-- Form of `vectors`: it reads the vectors A and B and writes a word of C. -/
lemma all_vectors (op : Word × Word × Word → Word × Word × Word → Word) (a : site.Names .a)
    (b : site.Names .b) (c : site.Names .c) (q : Q ()) : (vectors op).All site.Placed Q := by
  refine (all_getV (Q := fun _ => True) a fun _ => trivial).bind fun _ _ => ?_
  refine (all_getV (Q := fun _ => True) b fun _ => trivial).bind fun _ _ => ?_
  simp [set, Site.Placed, c, q]

/-- Form of `copyAB`: it copies at most three words of A to B. -/
lemma all_copyAB {words : Nat} (le : words ≤ 3) (a : site.Names .a) (b : site.Names .b) (q : Q ()) :
    (copyAB words).All site.Placed Q := by
  refine all_eachWord (fun k lt => ?_) q
  have : k < 3 := by omega
  simp [get, set, Site.Placed, this, a, b]

/-- A read of a double word is placed if the slot names globals. -/
lemma all_get64 {s : Slot} {Q : DWord → Prop} (a : site.Names s) (q : ∀ v, Q v) :
    (get64 s).All site.Placed Q := by
  simp [get64, get, Site.Placed, a, q]

/-- A write of a double word is placed if the slot names globals. -/
lemma all_set64 {s : Slot} (v : DWord) (a : site.Names s) (q : Q ()) :
    (set64 s v).All site.Placed Q := by
  simp [set64, set, Site.Placed, a, q]

/-- Form of `binary64`: it reads the double words A and B and writes C. -/
lemma all_binary64 (op : DWord → DWord → DWord) (a : site.Names .a) (b : site.Names .b)
    (c : site.Names .c) (q : Q ()) : (binary64 op).All site.Placed Q := by
  refine (all_get64 (Q := fun _ => True) a fun _ => trivial).bind fun _ _ => ?_
  refine (all_get64 (Q := fun _ => True) b fun _ => trivial).bind fun _ _ => ?_
  exact all_set64 _ c q

/-- Form of `compare64`: it reads the double words A and B and writes a word of C. -/
lemma all_compare64 (op : DWord → DWord → Bool) (a : site.Names .a) (b : site.Names .b)
    (c : site.Names .c) (q : Q ()) : (compare64 op).All site.Placed Q := by
  refine (all_get64 (Q := fun _ => True) a fun _ => trivial).bind fun _ _ => ?_
  refine (all_get64 (Q := fun _ => True) b fun _ => trivial).bind fun _ _ => ?_
  simp [set, Site.Placed, c, q]

/-- Form of `widen64`: it reads a word of A and writes a double word of C. -/
lemma all_widen64 (op : Word → DWord) (a : site.Names .a) (c : site.Names .c) (q : Q ()) :
    (widen64 op).All site.Placed Q :=
  ⟨⟨by omega, a⟩, fun _ => all_set64 _ c q⟩

/-- Form of `narrow64`: it reads a double word of A and writes a word of C. -/
lemma all_narrow64 (op : DWord → Word) (a : site.Names .a) (c : site.Names .c) (q : Q ()) :
    (narrow64 op).All site.Placed Q := by
  refine (all_get64 (Q := fun _ => True) a fun _ => trivial).bind fun _ _ => ?_
  simp [set, Site.Placed, c, q]

/-- Form of `unary64`: it reads a double word of A and writes C. -/
lemma all_unary64 (op : DWord → DWord) (a : site.Names .a) (c : site.Names .c) (q : Q ()) :
    (unary64 op).All site.Placed Q :=
  (all_get64 (Q := fun _ => True) a fun _ => trivial).bind fun _ _ => all_set64 _ c q

/-! ## Arms that reach memory -/

/-- A read of a word through memory is placed if the slot names globals. -/
lemma all_memGet {s : Slot} {k : Nat} {Q : Word → Prop} (lt : k < 3) (names : site.Names s)
    (q : ∀ v, Q v) : (memGet s k).All site.Placed Q :=
  ⟨⟨lt, names⟩, q⟩

/-- A write of a word through memory is placed if the slot names globals. -/
lemma all_memSet {s : Slot} {k : Nat} (v : Word) (lt : k < 3) (names : site.Names s) (q : Q ()) :
    (memSet s k v).All site.Placed Q :=
  ⟨⟨lt, names⟩, fun _ => q⟩

/-- Looking at the core is no access to the globals. -/
lemma all_look {Q : Core → Prop} (q : ∀ core, Q core) : look.All site.Placed Q := ⟨trivial, q⟩

/-- A read at an offset is placed if the word lies in the globals. -/
lemma all_getGlobal {off : Nat} {Q : Word → Prop} (fits : off + 4 ≤ 4 * site.ng) (q : ∀ v, Q v) :
    (getGlobal off).All site.Placed Q :=
  ⟨fits, q⟩

/-- Form of `compareStrings`: it reads A and B and writes C. -/
lemma all_compareStrings (ne : Bool) (a : site.Names .a) (b : site.Names .b) (c : site.Names .c)
    (q : Q ()) : (compareStrings ne).All site.Placed Q :=
  (all_get (Nat.zero_lt_succ _) a fun _ => trivial).bind fun _ (_ : True) =>
    (all_get (Nat.zero_lt_succ _) b fun _ => trivial).bind fun _ (_ : True) =>
      ⟨trivial, fun _ => all_memSet _ (Nat.zero_lt_succ _) c q⟩

/-- Form of `notS`: it reads A and writes C. -/
lemma all_notS (a : site.Names .a) (c : site.Names .c) (q : Q ()) : notS.All site.Placed Q := by
  refine (all_get (Nat.zero_lt_succ _) a fun _ => trivial).bind fun r (_ : True) => ?_
  split
  next => exact all_memSet _ (Nat.zero_lt_succ _) c q
  next => exact ⟨trivial, fun _ => all_memSet _ (Nat.zero_lt_succ _) c q⟩

/-- Form of `loadField`: it reads the entity A and the field B and writes a word of C. -/
lemma all_loadField (a : site.Names .a) (b : site.Names .b) (c : site.Names .c) (q : Q ()) :
    loadField.All site.Placed Q := by
  refine (all_get (Nat.zero_lt_succ _) a fun _ => trivial).bind fun e (_ : True) => ?_
  refine (all_get (Nat.zero_lt_succ _) b fun _ => trivial).bind fun f (_ : True) => ?_
  refine (all_look fun _ => trivial).bind fun core (_ : True) => ?_
  split
  next => exact all_set _ (Nat.zero_lt_succ _) c q
  next => exact ⟨trivial, fun _ => all_memSet _ (Nat.zero_lt_succ _) c q⟩

/-- Form of `loadV`: it reads the entity A and the field B and writes a vector of C. -/
lemma all_loadV (a : site.Names .a) (b : site.Names .b) (c : site.Names .c) (q : Q ()) :
    loadV.All site.Placed Q := by
  refine (all_get (Nat.zero_lt_succ _) a fun _ => trivial).bind fun e (_ : True) => ?_
  refine (all_get (Nat.zero_lt_succ _) b fun _ => trivial).bind fun f (_ : True) => ?_
  refine (all_look fun _ => trivial).bind fun core (_ : True) => ?_
  split
  next => exact all_each3 (fun _ lt => all_set _ lt c trivial) q
  next =>
    refine ⟨trivial, fun _ => all_eachWord (fun k lt => all_memSet _ ?_ c trivial) q⟩
    split at lt <;> omega

/-- Form of `loadI64`: it reads the entity A and the field B and writes at most three words of C. -/
lemma all_loadI64 (a : site.Names .a) (b : site.Names .b) (c : site.Names .c) (q : Q ()) :
    loadI64.All site.Placed Q := by
  refine (all_get (Nat.zero_lt_succ _) a fun _ => trivial).bind fun e (_ : True) => ?_
  refine (all_get (Nat.zero_lt_succ _) b fun _ => trivial).bind fun f (_ : True) => ?_
  refine (all_look fun _ => trivial).bind fun core (_ : True) => ?_
  split
  next => exact all_set64 _ c q
  next =>
    refine ⟨trivial, fun _ => all_eachWord (fun k lt => all_memSet _ ?_ c trivial) q⟩
    split at lt
    next => omega
    next => split at lt <;> omega

/-- Form of `address`: it reads the entity A and the field B and writes C. -/
lemma all_address (a : site.Names .a) (b : site.Names .b) (c : site.Names .c) (q : Q ()) :
    address.All site.Placed Q := by
  refine (all_get (Nat.zero_lt_succ _) a fun _ => trivial).bind fun e (_ : True) => ?_
  refine (all_get (Nat.zero_lt_succ _) b fun _ => trivial).bind fun f (_ : True) => ?_
  refine (all_look fun _ => trivial).bind fun core (_ : True) => ?_
  dsimp only
  split
  next => exact all_set _ (Nat.zero_lt_succ _) c q
  next =>
    split
    next => exact ⟨trivial, fun _ => q⟩
    next =>
      split
      next => exact (all_memSet _ (Nat.zero_lt_succ _) c trivial).bind fun _ (_ : True) =>
        ⟨trivial, fun _ => q⟩
      next => exact all_memSet _ (Nat.zero_lt_succ _) c q

/-- Form of `storeP`: it reads the value A, the pointer B and the index C. -/
lemma all_storeP {words : Nat} (some : 0 < words) (a : site.Names .a) (b : site.Names .b)
    (c : site.Names .c) (q : Q ()) : (storeP words).All site.Placed Q := by
  have written (v0 v1 v2 : Word) : wordsBytes ([v0, v1, v2].take words) ≠ [] := by
    cases words with
    | zero => omega
    | succ n => exact nofun
  have tail (v0 v1 v2 : Word) : (do
      let base ← get .b 0
      let idx ← get .c 0
      .call (.storeThrough base (idx * 4) (wordsBytes ([v0, v1, v2].take words))) .ofExcept :
      Arm Unit).All site.Placed Q :=
    (all_get (Nat.zero_lt_succ _) b fun _ => trivial).bind fun _ (_ : True) =>
      (all_get (Nat.zero_lt_succ _) c fun _ => trivial).bind fun _ (_ : True) =>
        ⟨written v0 v1 v2, fun r => all_ofExcept r fun _ => q⟩
  refine (all_get (Nat.zero_lt_succ _) a fun _ => trivial).bind fun v0 (_ : True) => ?_
  dsimp only
  split
  next =>
    refine (all_get (by omega) a fun _ => trivial).bind fun v1 (_ : True) => ?_
    split
    next => exact (all_get (by omega) a fun _ => trivial).bind fun v2 (_ : True) => tail v0 v1 v2
    next => exact tail v0 v1 0
  next =>
    change (if 2 < words then _ else _ : Arm Unit).All _ _
    split
    next => exact (all_get (by omega) a fun _ => trivial).bind fun v2 (_ : True) => tail v0 0 v2
    next => exact tail v0 0 0

/-- Form of `storePBytes`: it reads the value A, the pointer B and the index C. -/
lemma all_storePBytes (scale : Word) (bytes : Word → List Byte) (a : site.Names .a)
    (b : site.Names .b) (c : site.Names .c) (q : Q ()) :
    (storePBytes scale bytes).All site.Placed Q :=
  (all_get (Nat.zero_lt_succ _) a fun _ => trivial).bind fun _ (_ : True) =>
    (all_get (Nat.zero_lt_succ _) b fun _ => trivial).bind fun _ (_ : True) =>
      (all_get (Nat.zero_lt_succ _) c fun _ => trivial).bind fun _ (_ : True) =>
        ⟨trivial, fun r => all_ofExcept r fun _ => q⟩

/-- Form of `storePI64`: it reads the value A, the pointer B and the index C. -/
lemma all_storePI64 (a : site.Names .a) (b : site.Names .b) (c : site.Names .c) (q : Q ()) :
    storePI64.All site.Placed Q :=
  (all_get (Nat.zero_lt_succ _) b fun _ => trivial).bind fun _ (_ : True) =>
    (all_get (Nat.zero_lt_succ _) c fun _ => trivial).bind fun _ (_ : True) =>
      (all_get (Nat.zero_lt_succ _) a fun _ => trivial).bind fun _ (_ : True) =>
        (all_get (by omega) a fun _ => trivial).bind fun _ (_ : True) =>
          ⟨trivial, fun r => all_ofExcept r fun _ => q⟩

/-- Form of `loadP`: it reads the pointer A and the index B and writes at most three words of C. -/
lemma all_loadP {words : Nat} (some : 0 < words) (le : words ≤ 3) (a : site.Names .a)
    (b : site.Names .b) (c : site.Names .c) (q : Q ()) : (loadP words).All site.Placed Q :=
  (all_get (Nat.zero_lt_succ _) a fun _ => trivial).bind fun _ (_ : True) =>
    (all_get (Nat.zero_lt_succ _) b fun _ => trivial).bind fun _ (_ : True) =>
      ⟨⟨⟨some, le⟩, c⟩, fun r => all_ofExcept r fun _ => q⟩

/-- Form of `loadPBytes`: it reads the pointer A and the index B and writes a word of C. -/
lemma all_loadPBytes (n : Nat) (index : Word → Word) (value : List Byte → Word) (a : site.Names .a)
    (b : site.Names .b) (c : site.Names .c) (q : Q ()) :
    (loadPBytes n index value).All site.Placed Q :=
  (all_get (Nat.zero_lt_succ _) a fun _ => trivial).bind fun _ (_ : True) =>
    (all_get (Nat.zero_lt_succ _) b fun _ => trivial).bind fun _ (_ : True) =>
      ⟨trivial, fun r => (all_ofExcept r fun _ => trivial).bind fun _ (_ : True) =>
        all_memSet _ (Nat.zero_lt_succ _) c q⟩

/-- Form of `loadPI64`: it reads the pointer A and the index B and writes a double word of C. -/
lemma all_loadPI64 (a : site.Names .a) (b : site.Names .b) (c : site.Names .c) (q : Q ()) :
    loadPI64.All site.Placed Q :=
  (all_get (Nat.zero_lt_succ _) a fun _ => trivial).bind fun _ (_ : True) =>
    (all_get (Nat.zero_lt_succ _) b fun _ => trivial).bind fun _ (_ : True) =>
      ⟨trivial, fun r => (all_ofExcept r fun _ => trivial).bind fun _ (_ : True) =>
        (all_memSet _ (Nat.zero_lt_succ _) c trivial).bind fun _ (_ : True) =>
          all_memSet _ (by omega) c q⟩

/-- Form of `loadPConv`: it reads the pointer A and writes C. -/
lemma all_loadPConv (op : Word → Word) (a : site.Names .a) (c : site.Names .c) (q : Q ()) :
    (loadPConv op).All site.Placed Q := by
  refine (all_get (Nat.zero_lt_succ _) a fun _ => trivial).bind fun p (_ : True) => ?_
  refine (all_look fun _ => trivial).bind fun core (_ : True) => ?_
  split
  next => exact all_memSet _ (Nat.zero_lt_succ _) c q
  next => trivial

/-- Form of `copyWhole`: the source is checked where it is read, and C names globals. -/
lemma all_copyWhole (src : Nat) {words : Nat} (le : words ≤ 3) (c : site.Names .c) (q : Q ()) :
    (copyWhole src words).All site.Placed Q :=
  all_eachWord (fun _ lt => (all_look fun _ => trivial).bind fun _ (_ : True) =>
    all_memSet _ (by omega) c trivial) q

/-- Form of `fetchGbl`: the array it reads lies in the globals or the statement fails. -/
lemma all_fetchGbl (F : FloatOps) {stride : Nat} (le : stride ≤ 3) (b : site.Names .b)
    (c : site.Names .c) (q : Q ()) : (fetchGbl F site stride).All site.Placed Q := by
  refine (all_memGet (Nat.zero_lt_succ _) b fun _ => trivial).bind fun f (_ : True) => ?_
  dsimp only
  split
  next => trivial
  next =>
    refine (all_look fun _ => trivial).bind fun core (_ : True) => ?_
    split
    next => trivial
    next => exact all_copyWhole _ le c q

/-- Form of `rand`: it draws up to three numbers and writes them to C. -/
lemma all_rand (F : FloatOps) (steps : Word) {k : Nat} {op : Word → Arm Word} (lt : k < 3)
    (value : ∀ r, (op r).All site.Placed fun _ => True) (c : site.Names .c) (q : Q ()) :
    (rand F steps k op).All site.Placed Q :=
  ⟨trivial, fun _ => (value _).bind fun _ _ => all_memSet _ lt c q⟩

/-- A random number below a bound reads a word of A. -/
lemma all_scaled (F : FloatOps) {k : Nat} (lt : k < 3) (a : site.Names .a) (r : Word) :
    (scaled F k r).All site.Placed fun _ => True :=
  (all_memGet lt a fun _ => trivial).bind fun _ (_ : True) => trivial

/-- A random number between two bounds reads a word of A and one of B. -/
lemma all_between (F : FloatOps) {k : Nat} (lt : k < 3) (a : site.Names .a) (b : site.Names .b)
    (r : Word) : (between F k r).All site.Placed fun _ => True :=
  (all_memGet lt a fun _ => trivial).bind fun _ (_ : True) =>
    (all_memGet lt b fun _ => trivial).bind fun _ (_ : True) => trivial

/-- Globals reached by an index that was checked. -/
lemma all_loadIndexed {i words : Nat} (fits : i + words ≤ site.ng) (le : words ≤ 3)
    (c : site.Names .c) (q : Q ()) : (loadIndexed i words).All site.Placed Q :=
  all_eachWord (fun k lt => (all_getGlobal (by omega) fun _ => trivial).bind fun _ (_ : True) =>
    all_set _ (by omega) c trivial) q

/-- Form of `loadA`: the indexed words are checked where they are read. -/
lemma all_loadA {words : Nat} (le : words ≤ 3) (b : site.Names .b) (c : site.Names .c) (q : Q ()) :
    (loadA site words).All site.Placed Q := by
  refine (all_get (Nat.zero_lt_succ _) b fun _ => trivial).bind fun v (_ : True) => ?_
  dsimp only
  split
  next => trivial
  next inside => exact all_loadIndexed (by omega) le c q

/-- Form of `gLoad`: the address in A is checked against the globals. -/
lemma all_gLoad {words : Nat} (le : words ≤ 3) (a : site.Names .a) (c : site.Names .c) (q : Q ()) :
    (gLoad site words).All site.Placed Q := by
  refine (all_get (Nat.zero_lt_succ _) a fun _ => trivial).bind fun v (_ : True) => ?_
  dsimp only
  split
  next => trivial
  next inside => exact all_loadIndexed (by omega) le c q

/-- Form of `gStore`: the address in B is checked against the globals. -/
lemma all_gStore {words : Nat} (le : words ≤ 3) (a : site.Names .a) (b : site.Names .b)
    (q : Q ()) : (gStore site words).All site.Placed Q := by
  refine (all_get (Nat.zero_lt_succ _) b fun _ => trivial).bind fun v (_ : True) => ?_
  dsimp only
  split
  next => trivial
  next inside =>
    exact all_eachWord (fun k lt => (all_get (by omega) a fun _ => trivial).bind fun w (_ : True) =>
      ⟨.inl (by omega), fun _ => trivial⟩) q

/-- Form of `boundCheck`: it reads the index A. -/
lemma all_boundCheck (a : site.Names .a) (q : Q ()) : (boundCheck site).All site.Placed Q := by
  refine (all_get (Nat.zero_lt_succ _) a fun _ => trivial).bind fun v (_ : True) => ?_
  split
  next => trivial
  next => exact q

/-- Form of `push`: it reads the size A and writes the pointer C. -/
lemma all_push (a : site.Names .a) (c : site.Names .c) (q : Q ()) : push.All site.Placed Q := by
  refine (all_get (Nat.zero_lt_succ _) a fun _ => trivial).bind fun words (_ : True) => ?_
  refine (all_look fun _ => trivial).bind fun core (_ : True) => ?_
  dsimp only
  split
  next => trivial
  next => exact ⟨trivial, fun _ => all_memSet _ (Nat.zero_lt_succ _) c q⟩

end Arm

section Table

variable {F : FloatOps} {site : Site} {exitDepth : Nat} {Q : Unit → Prop}

/-- Every arm on operands alone is placed. -/
lemma placed_operandArm {op : Op} {p : Arm Unit} (e : operandArm F site op = some p)
    (here : site.st.op = op) (q : Q ()) : p.All site.Placed Q := by
  cases op <;> cases e <;>
    (with_reducible first
      | refine Arm.all_binary _ ?_ ?_ ?_ q
      | refine Arm.all_unary _ ?_ ?_ q
      | refine Arm.all_store _ ?_ ?_ q
      | refine Arm.all_storeCompound _ ?_ ?_ q
      | refine Arm.all_v3 _ ?_ ?_ ?_ q
      | refine Arm.all_vectorScalar _ ?_ ?_ ?_ q
      | refine Arm.all_scalarVector _ ?_ ?_ ?_ q
      | refine Arm.all_vectors _ ?_ ?_ ?_ q
      | refine Arm.all_copyAB (by omega) ?_ ?_ q
      | refine Arm.all_binary64 _ ?_ ?_ ?_ q
      | refine Arm.all_compare64 _ ?_ ?_ ?_ q
      | refine Arm.all_widen64 _ ?_ ?_ q
      | refine Arm.all_narrow64 _ ?_ ?_ q
      | refine Arm.all_unary64 _ ?_ ?_ q
      | skip) <;> try exact Site.names here rfl
  case notV.refl =>
    have a : site.Names .a := Site.names here rfl
    have c : site.Names .c := Site.names here rfl
    exact (Arm.all_getV a fun _ => trivial).bind fun v (_ : True) =>
      Arm.all_set _ (Nat.zero_lt_succ _) c q
  case mulStoreVF.refl =>
    have a : site.Names .a := Site.names here rfl
    have b : site.Names .b := Site.names here rfl
    exact (Arm.all_get (Nat.zero_lt_succ _) a fun _ => trivial).bind fun f (_ : True) =>
      Arm.all_each3 (fun _ lt => (Arm.all_get lt b fun _ => trivial).bind fun v (_ : True) =>
        Arm.all_set _ lt b trivial) q
  case addStoreV.refl | subStoreV.refl =>
    have a : site.Names .a := Site.names here rfl
    have b : site.Names .b := Site.names here rfl
    exact Arm.all_each3 (fun _ lt => (Arm.all_get lt b fun _ => trivial).bind fun v (_ : True) =>
      (Arm.all_get lt a fun _ => trivial).bind fun w (_ : True) =>
        Arm.all_set _ lt b trivial) q
  case lShiftI64I.refl | rShiftI64I.refl | rShiftU64I.refl =>
    have a : site.Names .a := Site.names here rfl
    have b : site.Names .b := Site.names here rfl
    have c : site.Names .c := Site.names here rfl
    exact (Arm.all_get64 a fun _ => trivial).bind fun v (_ : True) =>
      (Arm.all_get (Nat.zero_lt_succ _) b fun _ => trivial).bind fun n (_ : True) =>
        Arm.all_set64 _ c q
  case bitCopyI.refl =>
    have a : site.Names .a := Site.names here rfl
    have b : site.Names .b := Site.names here rfl
    have c : site.Names .c := Site.names here rfl
    exact (Arm.all_get (Nat.zero_lt_succ _) a fun _ => trivial).bind fun v (_ : True) =>
      (Arm.all_get (Nat.zero_lt_succ _) b fun _ => trivial).bind fun d (_ : True) =>
        (Arm.all_get (Nat.zero_lt_succ _) c fun _ => trivial).bind fun w (_ : True) =>
          Arm.all_set _ (Nat.zero_lt_succ _) c q
  case globalAddress.refl =>
    have b : site.Names .b := Site.names here rfl
    have c : site.Names .c := Site.names here rfl
    exact (Arm.all_get (Nat.zero_lt_succ _) b fun _ => trivial).bind fun v (_ : True) =>
      Arm.all_set _ (Nat.zero_lt_succ _) c q

/-- Every arm that goes through memory is placed. -/
lemma placed_memoryArm {op : Op} {p : Arm Unit} (e : memoryArm F site op = some p)
    (here : site.st.op = op) (q : Q ()) : p.All site.Placed Q := by
  cases op <;> cases e <;>
    (with_reducible first
      | refine Arm.all_loadField ?_ ?_ ?_ q
      | refine Arm.all_storePBytes _ _ ?_ ?_ ?_ q
      | refine Arm.all_storeP (by omega) ?_ ?_ ?_ q
      | refine Arm.all_loadPBytes _ _ _ ?_ ?_ ?_ q
      | refine Arm.all_loadP (by omega) (by omega) ?_ ?_ ?_ q
      | refine Arm.all_loadA (by omega) ?_ ?_ q
      | refine Arm.all_gLoad (by omega) ?_ ?_ q
      | refine Arm.all_gStore (by omega) ?_ ?_ q
      | refine Arm.all_fetchGbl F (by omega) ?_ ?_ q
      | refine Arm.all_compareStrings _ ?_ ?_ ?_ q
      | refine Arm.all_notS ?_ ?_ q
      | refine Arm.all_loadV ?_ ?_ ?_ q
      | refine Arm.all_loadI64 ?_ ?_ ?_ q
      | refine Arm.all_address ?_ ?_ ?_ q
      | refine Arm.all_storePI64 ?_ ?_ ?_ q
      | refine Arm.all_loadPI64 ?_ ?_ ?_ q
      | refine Arm.all_loadPConv _ ?_ ?_ q
      | refine Arm.all_boundCheck ?_ q
      | refine Arm.all_push ?_ ?_ q
      | skip) <;> try exact Site.names here rfl
  case storeFieldF.refl | storeFieldS.refl | storeFieldI.refl | storeFieldV.refl |
      storeFieldI64.refl =>
    exact ⟨⟨by omega, Site.names here rfl, Site.names here rfl, Site.names here rfl⟩, fun _ => q⟩
  case mulStorePF.refl | divStorePF.refl | addStorePF.refl | subStorePF.refl | mulStorePVF.refl |
      addStorePV.refl | subStorePV.refl | bitSetStorePF.refl | bitClrStorePF.refl =>
    exact ⟨⟨Site.names here rfl, Site.names here rfl, Site.names here rfl⟩,
      fun r => Arm.all_ofExcept r fun _ => q⟩
  case gAddress.refl | unused.refl | pop.refl | bad.refl | jumpOutOfRange.refl => trivial
  case rand0.refl =>
    exact Arm.all_rand F _ (by omega) (fun _ => trivial) (Site.names here rfl) q
  case rand1.refl =>
    exact Arm.all_rand F _ (by omega) (Arm.all_scaled F (by omega) (Site.names here rfl))
      (Site.names here rfl) q
  case rand2.refl =>
    exact Arm.all_rand F _ (by omega)
      (Arm.all_between F (by omega) (Site.names here rfl) (Site.names here rfl))
      (Site.names here rfl) q
  case randV0.refl =>
    exact Arm.all_each3 (fun k lt =>
      Arm.all_rand F _ lt (fun _ => trivial) (Site.names here rfl) trivial) q
  case randV1.refl =>
    exact Arm.all_each3 (fun k lt =>
      Arm.all_rand F _ lt (Arm.all_scaled F lt (Site.names here rfl)) (Site.names here rfl)
        trivial) q
  case randV2.refl =>
    exact Arm.all_each3 (fun k lt =>
      Arm.all_rand F _ lt (Arm.all_between F lt (Site.names here rfl) (Site.names here rfl))
        (Site.names here rfl) trivial) q

/-! ## Control -/

variable {R : Outcome → Prop}

/-- A branch reads its condition and ends by charging its target. -/
lemma all_branch {cond : Word → Bool} (a : site.Names .a)
    (next : R (.charge (.pure .next))) (goto : R (.charge (.pure (.goto site.st.b)))) :
    (Arm.branch site cond).All site.Placed R := by
  refine (Arm.all_get (Nat.zero_lt_succ _) a fun _ => trivial).bind fun v (_ : True) => ?_
  change R (.charge (.pure (if cond v then After.goto site.st.b else .next)))
  split
  next => exact goto
  next => exact next

/-- A case reads the value in A. -/
lemma all_caseHit {kind : SwitchKind} {R : Bool → Prop} (a : site.Names .a) (r : ∀ hit, R hit) :
    (Arm.caseHit F kind).All site.Placed R := by
  cases kind with
  | float | int =>
    exact ⟨Nat.zero_lt_succ _, fun _ =>
      (Arm.all_get (Nat.zero_lt_succ _) a fun _ => trivial).bind fun _ (_ : True) => r _⟩
  | string =>
    exact ⟨Nat.zero_lt_succ _, fun _ =>
      (Arm.all_get (Nat.zero_lt_succ _) a fun _ => trivial).bind fun _ (_ : True) =>
        ⟨trivial, fun _ => r _⟩⟩
  | vector =>
    exact ⟨Nat.zero_lt_succ _, fun _ => ⟨by change 1 < 3; omega, fun _ => ⟨by change 2 < 3; omega,
      fun _ => (Arm.all_getV a fun _ => trivial).bind fun _ (_ : True) => r _⟩⟩⟩

/-- A case range reads the bounds in A and B. -/
lemma all_caseRangeHit {kind : SwitchKind} {R : Bool → Prop} (a : site.Names .a)
    (b : site.Names .b) (r : ∀ hit, R hit) :
    (Arm.caseRangeHit F kind).All site.Placed R := by
  cases kind with
  | float | int =>
    exact ⟨Nat.zero_lt_succ _, fun _ =>
      (Arm.all_get (Nat.zero_lt_succ _) a fun _ => trivial).bind fun _ (_ : True) =>
        (Arm.all_get (Nat.zero_lt_succ _) b fun _ => trivial).bind fun _ (_ : True) => r _⟩
  | string => trivial
  | vector =>
    exact ⟨Nat.zero_lt_succ _, fun _ => ⟨by change 1 < 3; omega, fun _ => ⟨by change 2 < 3; omega,
      fun _ => (Arm.all_getV a fun _ => trivial).bind fun _ (_ : True) =>
        (Arm.all_getV b fun _ => trivial).bind fun _ (_ : True) => r _⟩⟩⟩

/-- Every control arm is placed, and ends where its statement may end. -/
lemma placed_controlArm {op : Op} (operands : operandArm F site op = none)
    (memory : memoryArm F site op = none) (here : site.st.op = op) :
    (controlArm F site exitDepth op).All site.Placed (site.Ends exitDepth) := by
  have real (ne : op ≠ .jumpOutOfRange) : site.st.op ≠ .jumpOutOfRange := here ▸ ne
  have jump {s : Slot} (kind : op.operand s = .jump) : site.st.op.operand s = .jump := here ▸ kind
  cases op
  case ifI | ifS | ifNotI | ifNotS | ifF | ifNotF =>
    exact all_branch (Site.names here rfl) ⟨real nofun, .next⟩ ⟨real nofun, .goto .b (jump rfl)⟩
  case goto => exact ⟨real nofun, .goto .a (jump rfl)⟩
  case state | thinkTime =>
    exact (Arm.all_get (Nat.zero_lt_succ _) (Site.names here rfl) fun _ => trivial).bind
      fun _ (_ : True) =>
        (Arm.all_get (Nat.zero_lt_succ _) (Site.names here rfl) fun _ => trivial).bind
          fun _ (_ : True) => real nofun
  case cState | cWState =>
    exact (Arm.all_get (Nat.zero_lt_succ _) (Site.names here rfl) fun _ => trivial).bind
      fun _ (_ : True) =>
        (Arm.all_get (Nat.zero_lt_succ _) (Site.names here rfl) fun _ => trivial).bind
          fun _ (_ : True) => (Arm.all_look fun _ => trivial).bind fun _ (_ : True) => real nofun
  case switchF | switchV | switchS | switchE | switchFnc | switchI =>
    exact ⟨Site.names here rfl, fun _ => ⟨real nofun, .goto .b (jump rfl)⟩⟩
  case case =>
    refine (Arm.all_look fun _ => trivial).bind fun core (_ : True) => ?_
    refine (all_caseHit (Site.names here rfl) fun _ => trivial).bind fun hit (_ : True) => ?_
    cases hit with
    | true => exact ⟨real nofun, .goto .b (jump rfl)⟩
    | false => exact real nofun
  case caseRange =>
    refine (Arm.all_look fun _ => trivial).bind fun core (_ : True) => ?_
    refine (all_caseRangeHit (Site.names here rfl) (Site.names here rfl) fun _ => trivial).bind
      fun hit (_ : True) => ?_
    cases hit with
    | true => exact ⟨real nofun, .goto .c (jump rfl)⟩
    | false => exact real nofun
  case «return» | done => exact ⟨real nofun, .leave (Site.names here rfl)⟩
  case call0 | call1 | call2 | call3 | call4 | call5 | call6 | call7 | call8 | call1H | call2H |
      call3H | call4H | call5H | call6H | call7H | call8H =>
    exact ⟨real nofun, .dispatch (by rw [here]; rfl)⟩
  all_goals first
    | (cases operands; done)
    | cases memory

/-- Every statement reaches only what it may. -/
theorem placed_statement :
    (statement F site exitDepth).All site.Placed (site.Ends exitDepth) := by
  unfold statement
  dsimp only
  cases operands : operandArm F site site.st.op with
  | some p =>
    have real : site.st.op ≠ .jumpOutOfRange := fun e => by rw [e] at operands; cases operands
    exact (placed_operandArm operands rfl trivial).bind fun _ (_ : True) => real
  | none =>
    cases memory : memoryArm F site site.st.op with
    | some p =>
      by_cases sentinel : site.st.op = .jumpOutOfRange
      · rw [sentinel] at memory
        cases memory
        trivial
      · exact (placed_memoryArm memory rfl trivial).bind fun _ (_ : True) => sentinel
    | none => exact placed_controlArm operands memory rfl

/-! ## Once a statement is paid for -/

/-- A copy to a fixed place is placed if the slot names globals and the place is covered. -/
lemma all_copyToGlobals {s : Slot} {off : Nat} (names : site.Names s)
    (slots : ∀ k < 3, site.Placed (.setGlobal (off + 4 * k) 0)) (q : Q ()) :
    (Arm.copyToGlobals s off).All site.Placed Q :=
  Arm.all_each3 (fun k lt => (Arm.all_get lt names fun _ => trivial).bind fun _ (_ : True) =>
    ⟨slots k lt, fun _ => trivial⟩) q

/-- Hexen 2 calls name their arguments. -/
lemma names_hexen2 {op : Op} (here : site.st.op = op) (h : op.isHexen2Call = true) :
    site.Names .b ∧ site.Names .c := by
  cases op <;> first
    | exact ⟨Site.names here rfl, Site.names here rfl⟩
    | cases h

/-- The arguments of a call are copied to the parameter words. -/
lemma all_passArguments (q : Q ()) : (Arm.passArguments site.st.op).All site.Placed Q := by
  unfold Arm.passArguments
  dsimp only
  split
  next hexen2 =>
    obtain ⟨b, c⟩ := names_hexen2 rfl hexen2
    have first : (Arm.copyToGlobals .b ofsParm0).All site.Placed Q :=
      all_copyToGlobals b (fun k lt => .inr (.inr ⟨hexen2, .inl ⟨by omega, by omega⟩⟩)) q
    split
    next two =>
      exact (all_copyToGlobals c
        (fun k lt => .inr (.inr ⟨hexen2, .inr ⟨two, by omega, by omega⟩⟩)) trivial).bind
          fun _ (_ : True) => first
    next => exact first
  next => exact q

/-- A call enters a function or asks for a builtin. -/
lemma placed_dispatch (a : site.Names .a) : (Arm.dispatch site).All site.Calls
    fun after => after = .reload ∨ ∃ slot func, after = .builtin slot func := by
  have flat {α : Type} {p : Arm α} {Q : α → Prop} (h : p.All site.Placed Q) : p.All site.Calls Q :=
    h.mono (fun _ => .inl) fun _ q => q
  refine (flat (all_passArguments trivial)).bind fun _ (_ : True) => ?_
  refine (flat (Arm.all_get (Nat.zero_lt_succ _) a fun _ => trivial)).bind fun fv (_ : True) => ?_
  refine ⟨.inl trivial, fun _ => ?_⟩
  refine (flat (Arm.all_look fun _ => trivial)).bind fun core (_ : True) => ?_
  split
  next =>
    refine ⟨.inr ⟨_, _, rfl⟩, fun r => ?_⟩
    cases r with
    | ok _ => exact .inl rfl
    | error _ => trivial
  next slot _ => exact .inr ⟨slot, _, rfl⟩
  all_goals trivial

/-- What a function returns with is written to its RETURN slots. -/
lemma all_return (a : site.Names .a) : (Arm.copyToGlobals .a ofsReturn).All site.Placed
    fun _ => True :=
  all_copyToGlobals a (fun k lt => .inr (.inl ⟨by omega, by omega⟩)) trivial

/-- Calls name their function. -/
lemma names_call (call : site.st.op.callArgc.isSome) : site.Names .a := by
  unfold Site.Names
  cases op : site.st.op <;> first
    | rfl
    | (rw [op] at call; cases call)

end Table

section Returns

variable {F : FloatOps} {V : View} {trace : Bool} {exitDepth : Nat}

/-- What is left of a statement returns to the host with no frames above the exit depth. -/
lemma frames_of_charged {site : Site} {after : Arm After} (charged : site.Charged exitDepth after)
    {core : Core} (returned : (after.run (site.handle F) core).1 = .ok .returned) :
    (after.run (site.handle F) core).2.frames.length ≤ exitDepth := by
  cases charged with
  | next => cases returned
  | goto => cases returned
  | leave names =>
    unfold Arm.leaveFunction at returned ⊢
    rw [Prog.bind_eq, Prog.run_bind] at returned ⊢
    split at returned
    next =>
      simp only [Prog.run_call, Prog.pure_eq, Prog.run_pure, Except.ok.injEq] at returned ⊢
      split at returned
      next le => exact le
      next => cases returned
    next => cases returned
  | dispatch call =>
    rcases Prog.run_value (placed_dispatch (names_call call)) returned with e | ⟨_, _, e⟩ <;> cases e

/-- Where the machine stops because it returned, no frames are above the exit depth. -/
def ReturnsAt (exitDepth : Nat) : Status At Stop → Prop :=
  Status.Holds (fun _ => True) fun stop => stop.exit = .returned → stop.core.frames.length ≤ exitDepth

/-- Reloading the registers does not end a run. -/
lemma returnsAt_reload (V : View) (core : Core) (budget cachedPr : Nat) (cached : Arr Stmt) :
    ReturnsAt exitDepth (reload V core budget cachedPr cached) := by
  unfold reload
  dsimp only
  split
  next => exact nofun
  next ps _ =>
    generalize (if cachedPr ≠ core.x.prnum then ps.code else cached) = code
    split
    next => exact nofun
    next =>
      split
      next => exact nofun
      next => trivial

/-- A statement that ends a run by returning does so at the exit depth. -/
lemma returnsAt_execute (core : Core) (a : At) :
    ReturnsAt exitDepth (execute F V trace exitDepth { a with core := core }) := by
  unfold execute
  split
  next => exact nofun
  next st _ =>
    dsimp only
    split
    next => exact nofun
    next => trivial
    next => exact nofun
    next after ended =>
      have charged := (Prog.run_value placed_statement ended).2
      unfold charge
      dsimp only
      split
      next => exact nofun
      next =>
        unfold proceed
        dsimp only
        split
        next => exact nofun
        next => trivial
        next => trivial
        next => exact returnsAt_reload _ _ _ _ _
        next returned => exact fun _ => frames_of_charged charged returned
        next => exact nofun

/-- A step that ends a run by returning does so at the exit depth. -/
lemma returnsAt_step (a : At) : ReturnsAt exitDepth (step F V trace exitDepth a) := by
  unfold step
  split
  next => exact nofun
  next => exact returnsAt_execute _ a

/-- The start of a run does not end it. -/
lemma returnsAt_start (V : View) (core : Core) (budget : Nat) :
    ReturnsAt exitDepth (start V core budget) := by
  unfold start
  split
  next => exact nofun
  next => exact returnsAt_reload _ _ _ _ _

/-- A run that returns has left the frames above its exit depth. -/
lemma frames_of_returned {core : Core} {budget : Nat}
    (returned : (run F V trace exitDepth core budget).exit = .returned) :
    (run F V trace exitDepth core budget).core.frames.length ≤ exitDepth := by
  have h : ReturnsAt exitDepth (Status.runFor (step F V trace exitDepth) (runBound core budget)
      (start V core budget)) :=
    Status.runFor_holds (fun a _ => returnsAt_step a) _ (returnsAt_start V core budget)
  unfold run at returned ⊢
  split at returned
  next stop e =>
    rw [e] at h
    exact h returned
  next => cases returned

end Returns

end Qcvm

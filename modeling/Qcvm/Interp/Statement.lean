import Qcvm.Interp.Micro

/-!
# The meaning of every opcode

The arms of the `match st.op` in `vm/interp.rs`, in the source's order and under the names of its
macros. An arm ends by falling through to the next statement, by leaving the loop with an animation
opcode, or at its charge against the budget (`tick!`); what follows the charge is a program of its
own, because the budget may stop the statement there.
-/

namespace Qcvm

open Lib

/-- How a statement ends once it is paid for. -/
inductive After where
  | next
  | goto (target : Nat)
  /-- `continue 'reload`. -/
  | reload
  | returned
  | builtin (slot : Nat) (func : FuncRef)
  deriving DecidableEq

/-- How a statement ends, or where it is charged. -/
inductive Outcome where
  | next
  | stateOp (op : StateOp)
  | charge (after : Arm After)

namespace Arm

/-- `g(w, operand + 4k)`. -/
def get (s : Slot) (k : Nat) : Arm Word := .call (.get s k) .pure

/-- `set(w, operand + 4k, v)`. -/
def set (s : Slot) (k : Nat) (v : Word) : Arm Unit := .call (.set s k v) .pure

/-- `core.mem.g(operand + 4k)`. -/
def memGet (s : Slot) (k : Nat) : Arm Word := .call (.memGet s k) .pure

/-- `core.mem.set_g(operand + 4k, v)`. -/
def memSet (s : Slot) (k : Nat) (v : Word) : Arm Unit := .call (.memSet s k v) .pure

/-- `g(w, gb + off)`. -/
def getGlobal (off : Nat) : Arm Word := .call (.getGlobal off) .pure

/-- `set(w, gb + off, v)`. -/
def setGlobal (off : Nat) (v : Word) : Arm Unit := .call (.setGlobal off v) .pure

/-- `g(w, switch_ref + 4k)`. -/
def getRef (k : Nat) : Arm Word := .call (.getRef k) .pure

/-- The core. -/
def look : Arm Core := .call .look .pure

/-- The same for the words 0, 1 and 2. -/
def each3 (p : Nat → Arm Unit) : Arm Unit := do
  p 0
  p 1
  p 2

/-- The first `n` words, in order. -/
def eachWord (p : Nat → Arm Unit) : Nat → Arm Unit
  | 0 => .pure ()
  | n + 1 => do
    eachWord p n
    p n

/-- `get64!`. -/
def get64 (s : Slot) : Arm DWord := do
  let lo ← get s 0
  let hi ← get s 1
  return join64 lo hi

/-- `set64!`. -/
def set64 (s : Slot) (v : DWord) : Arm Unit := do
  set s 0 (split64 v).1
  set s 1 (split64 v).2

/-- `C = op(A)`. -/
def unary (op : Word → Word) : Arm Unit := do
  let a ← get .a 0
  set .c 0 (op a)

/-- `C = op(A, B)` (`f3!`, `cmp_f!`, `cmp_i!`, `cmp_if!`, `cmp_fi!` and their like). -/
def binary (op : Word → Word → Word) : Arm Unit := do
  let a ← get .a 0
  let b ← get .b 0
  set .c 0 (op a b)

/-- `v3!`. -/
def v3 (op : Word → Word → Word) : Arm Unit := each3 fun k => do
  let a ← get .a k
  let b ← get .b k
  set .c k (op a b)

/-- `C = op(A, B)` on a vector `A` and a scalar `B`. -/
def vectorScalar (op : Word → Word → Word) : Arm Unit := do
  let f ← get .b 0
  each3 fun k => do
    let a ← get .a k
    set .c k (op a f)

/-- `C = op(A, B)` on a scalar `A` and a vector `B`. -/
def scalarVector (op : Word → Word → Word) : Arm Unit := do
  let f ← get .a 0
  each3 fun k => do
    let b ← get .b k
    set .c k (op f b)

/-- `gv`. -/
def getV (s : Slot) : Arm (Word × Word × Word) := do
  let x ← get s 0
  let y ← get s 1
  let z ← get s 2
  return (x, y, z)

/-- `C = op(A, B)` on vectors, with a one-word result. -/
def vectors (op : Word × Word × Word → Word × Word × Word → Word) : Arm Unit := do
  let a ← getV .a
  let b ← getV .b
  set .c 0 (op a b)

/-- `B = op(A)` (the stores to globals). -/
def store (op : Word → Word) : Arm Unit := do
  let a ← get .a 0
  set .b 0 (op a)

/-- `B = op(B, A)` (the compound stores to globals). -/
def storeCompound (op : Word → Word → Word) : Arm Unit := do
  let b ← get .b 0
  let a ← get .a 0
  set .b 0 (op b a)

/-- `copy(w, oa, ob, words)`. -/
def copyAB (words : Nat) : Arm Unit := eachWord (fun k => do set .b k (← get .a k)) words

/-- `i64_op!`, `d_op!`. -/
def binary64 (op : DWord → DWord → DWord) : Arm Unit := do
  let a ← get64 .a
  let b ← get64 .b
  set64 .c (op a b)

/-- `i64_cmp!`, `d_cmp!`. -/
def compare64 (op : DWord → DWord → Bool) : Arm Unit := do
  let a ← get64 .a
  let b ← get64 .b
  set .c 0 (ibool (op a b))

/-- `C = op(A)` from one word to two. -/
def widen64 (op : Word → DWord) : Arm Unit := do
  let a ← get .a 0
  set64 .c (op a)

/-- `C = op(A)` from two words to one. -/
def narrow64 (op : DWord → Word) : Arm Unit := do
  let a ← get64 .a
  set .c 0 (op a)

/-- `C = op(A)` on two words. -/
def unary64 (op : DWord → DWord) : Arm Unit := do
  let a ← get64 .a
  set64 .c (op a)

/-- `EQ_S`, `NE_S`. -/
def compareStrings (ne : Bool) : Arm Unit := do
  let a ← get .a 0
  let b ← get .b 0
  .call (.stringCompare ne a b) fun v => memSet .c 0 v

/-- `NOT_S`. -/
def notS : Arm Unit := do
  let r ← get .a 0
  if r = 0 then memSet .c 0 (fbool true)
  else .call (.strOrWarn r) fun text => memSet .c 0 (fbool text.isEmpty)

/-- `LOAD_F` and the other one-word field loads. -/
def loadField : Arm Unit := do
  let e ← get .a 0
  let f ← get .b 0
  let core ← look
  match core.mem.entField 4 e f with
  | some field => set .c 0 (wordOf field 0)
  | none =>
    .call (.badFieldAccess e f) fun _ => memSet .c 0 0

/-- `LOAD_V`: an invalid entity zeroes the whole vector, an invalid field only the first word. -/
def loadV : Arm Unit := do
  let e ← get .a 0
  let f ← get .b 0
  let core ← look
  match core.mem.entField 12 e f with
  | some field => each3 fun k => set .c k (wordOf field k)
  | none =>
    .call (.badFieldAccess e f) fun _ =>
      eachWord (fun k => memSet .c k 0) (if e.toNat < core.mem.numEdicts then 1 else 3)

/-- `LOAD_I64`. -/
def loadI64 : Arm Unit := do
  let e ← get .a 0
  let f ← get .b 0
  let core ← look
  match core.mem.entField 8 e f with
  | some field => set64 .c (join64 (wordOf field 0) (wordOf field 1))
  | none =>
    let words := if e.toNat < core.mem.numEdicts then 1
      else if core.config.compat.loadI64Zero3 then 3 else 2
    .call (.badFieldAccess e f) fun _ => eachWord (fun k => memSet .c k 0) words

/-- `ADDRESS`. -/
def address : Arm Unit := do
  let e ← get .a 0
  let f ← get .b 0
  let core ← look
  let m := core.mem
  if (m.slots[e.toNat]?).any (!·.guarded) then
    set .c 0 (BitVec.ofNat 32 m.eBase + BitVec.ofNat 32 (e.toNat * m.stride) + f * 4)
  else if e.toNat ≥ m.numEdicts then .call (.warn (.badEntity e)) .pure
  else if m.guarded e.toNat then do
    memSet .c 0 0xFFFFFFFF
    .call (.warn (.readOnlyEntity e)) .pure
  else memSet .c 0 (m.fieldAddress e f)

/-- `STOREP_*` of the words `A`, with the fast path. -/
def storeP (words : Nat) : Arm Unit := do
  let v0 ← get .a 0
  let v1 ← if 1 < words then get .a 1 else .pure 0
  let v2 ← if 2 < words then get .a 2 else .pure 0
  let base ← get .b 0
  let idx ← get .c 0
  .call (.storeThrough base (idx * 4) (wordsBytes ([v0, v1, v2].take words))) .ofExcept

/-- The pointer stores without a fast path: `*(B + scale * C) = bytes(A)`. -/
def storePBytes (scale : Word) (bytes : Word → List Byte) : Arm Unit := do
  let a ← get .a 0
  let base ← get .b 0
  let idx ← get .c 0
  .call (.ptrWrite base (idx * scale) (bytes a)) .ofExcept

/-- `STOREP_I64`. -/
def storePI64 : Arm Unit := do
  let base ← get .b 0
  let idx ← get .c 0
  let lo ← get .a 0
  let hi ← get .a 1
  .call (.ptrWrite base (idx * 4) (wordsBytes [lo, hi])) .ofExcept

/-- `LOADP_*` of so many words, with the fast path. -/
def loadP (words : Nat) : Arm Unit := do
  let base ← get .a 0
  let idx ← get .b 0
  .call (.loadThrough words base (idx * 4)) .ofExcept

/-- The pointer loads without a fast path: `C = value(*(A + index(B)))`. -/
def loadPBytes (n : Nat) (index : Word → Word) (value : List Byte → Word) : Arm Unit := do
  let base ← get .a 0
  let idx ← get .b 0
  .call (.ptrRead n base (index idx)) fun r => do
    let bytes ← .ofExcept r
    memSet .c 0 (value bytes)

/-- `LOADP_I64`. -/
def loadPI64 : Arm Unit := do
  let base ← get .a 0
  let idx ← get .b 0
  .call (.ptrRead 8 base (idx * 4)) fun r => do
    let bytes ← .ofExcept r
    memSet .c 0 (wordOf bytes 0)
    memSet .c 1 (wordOf bytes 1)

/-- `LOADP_ITOF`, `LOADP_FTOI`: operand `B` is ignored and there is no fallback. -/
def loadPConv (op : Word → Word) : Arm Unit := do
  let p ← get .a 0
  let core ← look
  match core.mem.readU32 p with
  | some w => memSet .c 0 (op w)
  | none => .fail (.badPointerRead p)

/-- `copy(s, src, oc, words)` within all of region S. -/
def copyWhole (src words : Nat) : Arm Unit :=
  eachWord (fun k => do
    let core ← look
    memSet .c k (core.mem.g (src + 4 * k))) words

/-- `FETCH_GBL_*`: the word before the array is its last index. -/
def fetchGbl (F : FloatOps) (site : Site) (stride : Nat) : Arm Unit := do
  let f ← memGet .b 0
  let i := F.f2i f
  if site.st.a = 0 then .fail (.arrayIndex i.toInt)
  else
    let core ← look
    let last := core.mem.g (site.gb + 4 * (site.st.a - 1))
    if i.toNat > last.toNat then .fail (.arrayIndex i.toInt)
    else
      let word := BitVec.ofNat 32 site.st.a + i * BitVec.ofNat 32 stride
      copyWhole (site.gb + 4 * word.toNat) stride

/-- `RAND*` of component `k`: `C = op(r)` with a random `r` from 0 on, 32768 steps of `1 / steps`
wide. -/
def rand (F : FloatOps) (steps : Word) (k : Nat) (op : Word → Arm Word) : Arm Unit :=
  .call .rand15 fun n => do
    let v ← op (F.div (F.ofU32 n) steps)
    memSet .c k v

/-- The value of `RAND1` and `RANDV1`. -/
def scaled (F : FloatOps) (k : Nat) (r : Word) : Arm Word := do
  let a ← memGet .a k
  return F.mul r a

/-- The value of `RAND2` and `RANDV2`. -/
def between (F : FloatOps) (k : Nat) (r : Word) : Arm Word := do
  let a ← memGet .a k
  let b ← memGet .b k
  return F.add a (F.mul r (F.sub b a))

/-- `copy(w, src, oc, words)` from a global reached by an index. -/
def loadIndexed (i words : Nat) : Arm Unit :=
  eachWord (fun k => do set .c k (← getGlobal (4 * i + 4 * k))) words

/-- `LOADA_*`: global `A + B` of the current progs. -/
def loadA (site : Site) (words : Nat) : Arm Unit := do
  let b ← get .b 0
  let i := (site.st.a : Int) + b.toInt
  if i < 0 ∨ i + words > site.ng then .fail (.arrayIndex i) else loadIndexed i.toNat words

/-- `GLOAD_*`: global `A` of the current progs. -/
def gLoad (site : Site) (words : Nat) : Arm Unit := do
  let a ← get .a 0
  let i := a.toInt
  if i < 0 ∨ i + words > site.ng then .fail (.arrayIndex i) else loadIndexed i.toNat words

/-- `GSTOREP_*`: to global `B` of the current progs. -/
def gStore (site : Site) (words : Nat) : Arm Unit := do
  let b ← get .b 0
  let i := b.toInt
  if i < 0 ∨ i + words > site.ng then .fail (.arrayIndex i)
  else eachWord (fun k => do setGlobal (4 * i.toNat + 4 * k) (← get .a k)) words

/-- `GLOBALADDRESS`. -/
def globalAddress (site : Site) : Arm Unit := do
  let b ← get .b 0
  let word := BitVec.ofNat 32 site.st.a + b
  set .c 0 (BitVec.ofNat 32 site.gb + word * 4)

/-- `BOUNDCHECK`. -/
def boundCheck (site : Site) : Arm Unit := do
  let v ← get .a 0
  if v.toNat < site.st.c ∨ v.toNat ≥ site.st.b then .fail (.boundCheck v.toInt site.st.c site.st.b)

/-- `PUSH`. -/
def push : Arm Unit := do
  let words ← get .a 0
  let core ← look
  let x := core.x
  let addr := BitVec.ofNat 32 (core.mem.lsBase + 4 * (x.lsTop + x.pushed))
  let pushed := saturatingAdd x.pushed words.toNat
  if saturatingAdd x.lsTop pushed ≥ core.mem.lsWords then .fail .pushedTooMuch
  else .call (.setPushed pushed) fun _ => memSet .c 0 addr

/-- `BITEXTEND_I`, `BITEXTEND_U`: the bitfield `B` describes, extended by `shift`. -/
def bitExtend (shift : Word → Nat → Word) (a d : Word) : Word :=
  let width := d &&& 0xFF
  let p := d >>> 8
  if width = 0 then 0
  else shift (a <<< ((32 - width - p).toNat % 32)) ((32 - width).toNat % 32)

/-- `BITCOPY_I`. -/
def bitCopy : Arm Unit := do
  let a ← get .a 0
  let d ← get .b 0
  let c ← get .c 0
  let width := d &&& 0xFF
  let p := (d >>> 8).toNat % 32
  let mask : Word := if width.toNat ≥ 32 then 0xFFFFFFFF else (1 <<< width.toNat) - 1
  set .c 0 (c &&& ~~~(mask <<< p) ||| (a &&& mask) <<< p)

/-- A conditional jump to operand `B`; it is charged whether or not it is taken. -/
def branch (site : Site) (cond : Word → Bool) : Arm Outcome := do
  let a ← get .a 0
  return .charge (.pure (if cond a then .goto site.st.b else .next))

/-- `SWITCH_*`. -/
def switch (site : Site) (kind : SwitchKind) : Arm Outcome :=
  .call (.setSwitch kind) fun _ => .pure (.charge (.pure (.goto site.st.b)))

/-- Whether `CASE` hits. -/
def caseHit (F : FloatOps) (kind : SwitchKind) : Arm Bool :=
  match kind with
  | .float => do
    let r ← getRef 0
    let a ← get .a 0
    return F.eq r a
  | .vector => do
    let r0 ← getRef 0
    let r1 ← getRef 1
    let r2 ← getRef 2
    let (a0, a1, a2) ← getV .a
    return F.eq r0 a0 && F.eq r1 a1 && F.eq r2 a2
  | .int => do
    let r ← getRef 0
    let a ← get .a 0
    return r == a
  | .string => do
    let r ← getRef 0
    let a ← get .a 0
    .call (.stringsEqual r a) .pure

/-- `CASE`. -/
def case (F : FloatOps) (site : Site) : Arm Outcome := do
  let core ← look
  let hit ← caseHit F core.x.switchKind
  return if hit then .charge (.pure (.goto site.st.b)) else .next

/-- Whether `CASERANGE` hits. -/
def caseRangeHit (F : FloatOps) (kind : SwitchKind) : Arm Bool :=
  match kind with
  | .float => do
    let v ← getRef 0
    let lo ← get .a 0
    let hi ← get .b 0
    return F.le lo v && F.le v hi
  | .vector => do
    let v0 ← getRef 0
    let v1 ← getRef 1
    let v2 ← getRef 2
    let (lo0, lo1, lo2) ← getV .a
    let (hi0, hi1, hi2) ← getV .b
    return (F.le lo0 v0 && F.le v0 hi0) && (F.le lo1 v1 && F.le v1 hi1) &&
      (F.le lo2 v2 && F.le v2 hi2)
  | .int => do
    let v ← getRef 0
    let lo ← get .a 0
    let hi ← get .b 0
    return lo.sle v && v.sle hi
  | .string => .fail .stringCaseRange

/-- `CASERANGE`. -/
def caseRange (F : FloatOps) (site : Site) : Arm Outcome := do
  let core ← look
  let hit ← caseRangeHit F core.x.switchKind
  return if hit then .charge (.pure (.goto site.st.c)) else .next

/-- `copy(w, operand, gb + off, 3)`. -/
def copyToGlobals (s : Slot) (off : Nat) : Arm Unit :=
  each3 fun k => do setGlobal (off + 4 * k) (← get s k)

/-- The argument passing of `CALLnH`. -/
def passArguments (op : Op) : Arm Unit := do
  let argc := op.callArgc.getD 0
  if op.isHexen2Call then do
    if argc ≥ 2 then copyToGlobals .c ofsParm1
    copyToGlobals .b ofsParm0

/-- `CALL0` to `CALL8H`, once paid for. -/
def dispatch (site : Site) : Arm After := do
  passArguments site.st.op
  let fv ← get .a 0
  .call (.setArgc (site.st.op.callArgc.getD 0)) fun _ => do
    let target : FuncRef := ⟨fv⟩
    let core ← look
    match core.callee target with
    | some .qc =>
      .call (.enter target.progs target.index (wrappingAdd site.pc 1)) fun r => do
        .ofExcept r
        return .reload
    | some (.builtin slot) => return .builtin slot target
    | some .null => .fail .nullFunction
    | some .missing => .fail (core.missingBuiltin target)
    | some .invalid | none => .fail (.invalidFunction target)

/-- `RETURN`, `DONE`, once paid for. -/
def leaveFunction (exitDepth : Nat) : Arm After := do
  copyToGlobals .a ofsReturn
  .call .leave fun depth => return if depth ≤ exitDepth then .returned else .reload

/-- An arm that falls through to the next statement. -/
def falls (p : Arm Unit) : Arm Outcome := do
  p
  return .next

end Arm

/-- Signed division; division by zero gives 0 and the one overflow `overflow`. -/
def divSigned {w : Nat} (overflow : BitVec w) (a b : BitVec w) : BitVec w :=
  if b = 0 then 0
  else if a = BitVec.intMin w ∧ b = BitVec.allOnes w then overflow
  else a.sdiv b

section Table

variable (F : FloatOps) (site : Site) (exitDepth : Nat)

/-- The opcodes that read operands, write operands and fall through. -/
def operandArm : Op → Option (Arm Unit)
  -- v6 arithmetic
  | .mulF => some (.binary F.mul)
  | .divF => some (.binary F.div)
  | .addF => some (.binary F.add)
  | .subF => some (.binary F.sub)
  | .mulV => some (.vectors fun (a0, a1, a2) (b0, b1, b2) =>
      F.add (F.add (F.mul a0 b0) (F.mul a1 b1)) (F.mul a2 b2))
  | .mulFV => some (.scalarVector F.mul)
  | .mulVF => some (.vectorScalar F.mul)
  | .divVF => some (.vectorScalar F.div)
  | .addV => some (.v3 F.add)
  | .subV => some (.v3 F.sub)
  -- v6 comparisons
  | .eqF => some (.binary fun a b => fbool (F.eq a b))
  | .neF => some (.binary fun a b => fbool (F.ne a b))
  | .leF => some (.binary fun a b => fbool (F.le a b))
  | .geF => some (.binary fun a b => fbool (F.ge a b))
  | .ltF => some (.binary fun a b => fbool (F.lt a b))
  | .gtF => some (.binary fun a b => fbool (F.gt a b))
  | .eqV => some (.vectors fun (a0, a1, a2) (b0, b1, b2) =>
      fbool (F.eq a0 b0 && F.eq a1 b1 && F.eq a2 b2))
  | .neV => some (.vectors fun (a0, a1, a2) (b0, b1, b2) =>
      fbool (F.ne a0 b0 || F.ne a1 b1 || F.ne a2 b2))
  | .eqE | .eqFnc => some (.binary fun a b => fbool (a == b))
  | .neE | .neFnc => some (.binary fun a b => fbool (a != b))
  -- logic
  | .notF => some (.unary fun a => fbool !floatTrue a)
  | .notV => some do
      let (a0, a1, a2) ← Arm.getV .a
      Arm.set .c 0 (fbool (F.eq a0 0 && F.eq a1 0 && F.eq a2 0))
  | .notEnt => some (.unary fun a => fbool (a == 0))
  | .notFnc => some (.unary fun a => fbool (a &&& 0x00FFFFFF == 0))
  | .notI => some (.unary fun a => ibool (a == 0))
  | .andF => some (.binary fun a b => fbool (floatTrue a && floatTrue b))
  | .orF => some (.binary fun a b => fbool (floatTrue a || floatTrue b))
  | .bitAndF => some (.binary fun a b => F.ofI32 (F.f2i a &&& F.f2i b))
  | .bitOrF => some (.binary fun a b => F.ofI32 (F.f2i a ||| F.f2i b))
  -- global stores
  | .storeF | .storeS | .storeEnt | .storeFld | .storeFnc | .storeI | .storeP => some (.store id)
  | .storeV => some (.copyAB 3)
  | .storeI64 => some (.copyAB 2)
  | .storeIF => some (.store F.ofI32)
  | .storeFI => some (.store F.f2i)
  -- Hexen 2 compound stores
  | .mulStoreF => some (.storeCompound F.mul)
  | .divStoreF => some (.storeCompound F.div)
  | .addStoreF => some (.storeCompound F.add)
  | .subStoreF => some (.storeCompound F.sub)
  | .mulStoreVF => some do
      let f ← Arm.get .a 0
      Arm.each3 fun k => do
        let b ← Arm.get .b k
        Arm.set .b k (F.mul b f)
  | .addStoreV => some <| Arm.each3 fun k => do
      let b ← Arm.get .b k
      let a ← Arm.get .a k
      Arm.set .b k (F.add b a)
  | .subStoreV => some <| Arm.each3 fun k => do
      let b ← Arm.get .b k
      let a ← Arm.get .a k
      Arm.set .b k (F.sub b a)
  | .bitSetStoreF => some (.storeCompound fun b a => F.ofI32 (F.f2i b ||| F.f2i a))
  | .bitClrStoreF => some (.storeCompound fun b a => F.ofI32 (F.f2i b &&& ~~~F.f2i a))
  -- integers
  | .addI => some (.binary (· + ·))
  | .subI => some (.binary (· - ·))
  | .mulI => some (.binary (· * ·))
  | .divI => some (.binary (divSigned 0x7FFFFFFF))
  | .bitAndI => some (.binary (· &&& ·))
  | .bitOrI => some (.binary (· ||| ·))
  | .bitXorI => some (.binary (· ^^^ ·))
  | .rShiftI => some (.binary fun a b => a.sshiftRight (b.toNat % 32))
  | .lShiftI => some (.binary fun a b => a <<< (b.toNat % 32))
  | .eqI => some (.binary fun a b => ibool (a == b))
  | .neI => some (.binary fun a b => ibool (a != b))
  | .leI => some (.binary fun a b => ibool (a.sle b))
  | .geI => some (.binary fun a b => ibool (b.sle a))
  | .ltI => some (.binary fun a b => ibool (a.slt b))
  | .gtI => some (.binary fun a b => ibool (b.slt a))
  | .andI => some (.binary fun a b => ibool (a != 0 && b != 0))
  | .orI => some (.binary fun a b => ibool (a != 0 || b != 0))
  | .convItoF => some (.unary F.ofI32)
  | .convFtoI => some (.unary F.f2i)
  -- mixed int/float
  | .addFI => some (.binary fun a b => F.add a (F.ofI32 b))
  | .addIF => some (.binary fun a b => F.add (F.ofI32 a) b)
  | .subFI => some (.binary fun a b => F.sub a (F.ofI32 b))
  | .subIF => some (.binary fun a b => F.sub (F.ofI32 a) b)
  | .mulIF => some (.binary fun a b => F.mul (F.ofI32 a) b)
  | .mulFI => some (.binary fun a b => F.mul a (F.ofI32 b))
  | .divIF => some (.binary fun a b => F.div (F.ofI32 a) b)
  | .divFI => some (.binary fun a b => F.div a (F.ofI32 b))
  | .mulVI => some (.vectorScalar fun a i => F.mul a (F.ofI32 i))
  | .mulIV => some (.scalarVector fun i b => F.mul (F.ofI32 i) b)
  | .leIF => some (.binary fun a b => ibool (F.le (F.ofI32 a) b))
  | .geIF => some (.binary fun a b => ibool (F.ge (F.ofI32 a) b))
  | .ltIF => some (.binary fun a b => ibool (F.lt (F.ofI32 a) b))
  | .gtIF => some (.binary fun a b => ibool (F.gt (F.ofI32 a) b))
  | .eqIF => some (.binary fun a b => ibool (F.eq (F.ofI32 a) b))
  | .neIF => some (.binary fun a b => ibool (F.ne (F.ofI32 a) b))
  | .leFI => some (.binary fun a b => ibool (F.le a (F.ofI32 b)))
  | .geFI => some (.binary fun a b => ibool (F.ge a (F.ofI32 b)))
  | .ltFI => some (.binary fun a b => ibool (F.lt a (F.ofI32 b)))
  | .gtFI => some (.binary fun a b => ibool (F.gt a (F.ofI32 b)))
  | .eqFI => some (.binary fun a b => ibool (F.eq a (F.ofI32 b)))
  | .neFI => some (.binary fun a b => ibool (F.ne a (F.ofI32 b)))
  | .bitAndIF => some (.binary fun a b => a &&& F.f2i b)
  | .bitOrIF => some (.binary fun a b => a ||| F.f2i b)
  | .bitAndFI => some (.binary fun a b => F.f2i a &&& b)
  | .bitOrFI => some (.binary fun a b => F.f2i a ||| b)
  | .andIF => some (.binary fun a b => ibool (a != 0 && F.ne b 0))
  | .orIF => some (.binary fun a b => ibool (a != 0 || F.ne b 0))
  | .andFI => some (.binary fun a b => ibool (F.ne a 0 && b != 0))
  | .orFI => some (.binary fun a b => ibool (F.ne a 0 || b != 0))
  -- pointers and strings
  | .globalAddress => some (.globalAddress site)
  | .addPIW => some (.binary fun a b => a + b * 4)
  | .addSF => some (.binary fun a b => a + F.f2i b)
  | .subS => some (.binary (· - ·))
  -- unsigned
  | .leU => some (.binary fun a b => ibool (a.ule b))
  | .ltU => some (.binary fun a b => ibool (a.ult b))
  | .divU => some (.binary fun a b => if b = 0 then 0 else a / b)
  | .rShiftU => some (.binary fun a b => a >>> (b.toNat % 32))
  | .convUF => some (.unary F.ofU32)
  | .convFU => some (.unary F.f2u)
  -- 64-bit integers
  | .addI64 => some (.binary64 (· + ·))
  | .subI64 => some (.binary64 (· - ·))
  | .mulI64 => some (.binary64 (· * ·))
  | .divI64 => some (.binary64 (divSigned 0x8000000000000000))
  | .bitAndI64 => some (.binary64 (· &&& ·))
  | .bitOrI64 => some (.binary64 (· ||| ·))
  | .bitXorI64 => some (.binary64 (· ^^^ ·))
  | .lShiftI64I => some do
      let a ← Arm.get64 .a
      let n ← Arm.get .b 0
      Arm.set64 .c (a <<< (n.toNat % 64))
  | .rShiftI64I => some do
      let a ← Arm.get64 .a
      let n ← Arm.get .b 0
      Arm.set64 .c (a.sshiftRight (n.toNat % 64))
  | .rShiftU64I => some do
      let a ← Arm.get64 .a
      let n ← Arm.get .b 0
      Arm.set64 .c (a >>> (n.toNat % 64))
  | .leI64 => some (.compare64 fun a b => a.sle b)
  | .ltI64 => some (.compare64 fun a b => a.slt b)
  | .eqI64 => some (.compare64 (· == ·))
  | .neI64 => some (.compare64 (· != ·))
  | .leU64 => some (.compare64 fun a b => a.ule b)
  | .ltU64 => some (.compare64 fun a b => a.ult b)
  | .divU64 => some (.binary64 fun a b => if b = 0 then 0 else a / b)
  | .convUI64 => some (.widen64 fun a => a.setWidth 64)
  | .convII64 => some (.widen64 fun a => a.signExtend 64)
  | .convI64I => some (.unary id)
  | .convI64F => some (.narrow64 F.ofI64)
  | .convU64F => some (.narrow64 F.ofU64)
  | .convFI64 => some (.widen64 fun a => F.d2i64 (F.widen a))
  | .convFU64 => some (.widen64 fun a => F.d2u64 (F.widen a))
  -- doubles
  | .addD => some (.binary64 F.addD)
  | .subD => some (.binary64 F.subD)
  | .mulD => some (.binary64 F.mulD)
  | .divD => some (.binary64 F.divD)
  | .leD => some (.compare64 F.leD)
  | .ltD => some (.compare64 F.ltD)
  | .eqD => some (.compare64 F.eqD)
  | .neD => some (.compare64 F.neD)
  | .convFD => some (.widen64 F.widen)
  | .convDF => some (.narrow64 F.narrow)
  | .convI64D => some (.unary64 F.ofI64D)
  | .convU64D => some (.unary64 F.ofU64D)
  | .convDI64 => some (.unary64 F.d2i64)
  | .convDU64 => some (.unary64 F.d2u64)
  -- bitfields
  | .bitExtendI => some (.binary (Arm.bitExtend fun a n => a.sshiftRight n))
  | .bitExtendU => some (.binary (Arm.bitExtend fun a n => a >>> n))
  | .bitCopyI => some .bitCopy
  | _ => none

/-- The opcodes that reach memory beyond their operands and fall through. -/
def memoryArm : Op → Option (Arm Unit)
  | .eqS => some (.compareStrings false)
  | .neS => some (.compareStrings true)
  | .notS => some .notS
  -- entity fields
  | .loadF | .loadS | .loadEnt | .loadFld | .loadFnc | .loadI | .loadP => some .loadField
  | .loadV => some .loadV
  | .loadI64 => some .loadI64
  | .address => some .address
  | .storeFieldF | .storeFieldS | .storeFieldI => some (.call (.storeField 1) .pure)
  | .storeFieldV => some (.call (.storeField 3) .pure)
  | .storeFieldI64 => some (.call (.storeField 2) .pure)
  -- stores through pointers
  | .storePF | .storePS | .storePEnt | .storePFld | .storePFnc | .storePI => some (.storeP 1)
  | .storePV => some (.storeP 3)
  | .storePI64 => some .storePI64
  | .storePIF => some (.storePBytes 4 fun a => leBytes (F.ofI32 a))
  | .storePFI => some (.storePBytes 4 fun a => leBytes (F.f2i a))
  | .storePC => some (.storePBytes 1 fun a => [(F.f2i a).setWidth 8])
  | .storePI8 => some (.storePBytes 1 fun a => [a.setWidth 8])
  | .storePI16 => some (.storePBytes 2 fun a => (leBytes a).take 2)
  -- loads through pointers
  | .loadPF | .loadPS | .loadPEnt | .loadPFld | .loadPFnc | .loadPI => some (.loadP 1)
  | .loadPV => some (.loadP 3)
  | .loadPI64 => some .loadPI64
  | .loadPC => some (.loadPBytes 1 F.f2i fun b => F.ofU32 ((b.getD 0 0).setWidth 32))
  | .loadPU8 => some (.loadPBytes 1 id fun b => (b.getD 0 0).setWidth 32)
  | .loadPI8 => some (.loadPBytes 1 id fun b => (b.getD 0 0).signExtend 32)
  | .loadPU16 => some (.loadPBytes 2 (· * 2) fun b => (b.getD 1 0 ++ b.getD 0 0).setWidth 32)
  | .loadPI16 => some (.loadPBytes 2 (· * 2) fun b => (b.getD 1 0 ++ b.getD 0 0).signExtend 32)
  | .loadPItoF => some (.loadPConv F.ofI32)
  | .loadPFtoI => some (.loadPConv F.f2i)
  -- Hexen 2 compound stores
  | .mulStorePF => some (.call (.compound .mul) .ofExcept)
  | .divStorePF => some (.call (.compound .div) .ofExcept)
  | .addStorePF => some (.call (.compound .add) .ofExcept)
  | .subStorePF => some (.call (.compound .sub) .ofExcept)
  | .mulStorePVF => some (.call (.pointerStore .mulVF) .ofExcept)
  | .addStorePV => some (.call (.pointerStore .addV) .ofExcept)
  | .subStorePV => some (.call (.pointerStore .subV) .ofExcept)
  | .bitSetStorePF => some (.call (.pointerStore .bitSet) .ofExcept)
  | .bitClrStorePF => some (.call (.pointerStore .bitClr) .ofExcept)
  -- Hexen 2 global arrays
  | .fetchGblF | .fetchGblS | .fetchGblE | .fetchGblFnc => some (.fetchGbl F site 1)
  | .fetchGblV => some (.fetchGbl F site 3)
  -- random
  | .rand0 => some (.rand F 0x47000000 0 .pure)
  | .rand1 => some (.rand F 0x47000000 0 (.scaled F 0))
  | .rand2 => some (.rand F 0x47000000 0 (.between F 0))
  | .randV0 => some (.each3 fun k => .rand F 0x46FFFE00 k .pure)
  | .randV1 => some (.each3 fun k => .rand F 0x46FFFE00 k (.scaled F k))
  | .randV2 => some (.each3 fun k => .rand F 0x46FFFE00 k (.between F k))
  -- indexed globals
  | .loadAF | .loadAS | .loadAEnt | .loadAFld | .loadAFnc | .loadAI => some (.loadA site 1)
  | .loadAV => some (.loadA site 3)
  | .loadAI64 => some (.loadA site 2)
  | .gLoadI | .gLoadF | .gLoadFld | .gLoadEnt | .gLoadS | .gLoadFnc => some (.gLoad site 1)
  | .gLoadV => some (.gLoad site 3)
  | .gStorePI | .gStorePF | .gStorePEnt | .gStorePFld | .gStorePS | .gStorePFnc =>
    some (.gStore site 1)
  | .gStorePV => some (.gStore site 3)
  | .boundCheck => some (.boundCheck site)
  | .push => some .push
  -- faults
  | .gAddress => some (.fail .gAddress)
  | .unused | .pop | .bad => some (.fail (.badOpcode site.st.op))
  | .jumpOutOfRange => some (.fail .jumpOutOfRange)
  | _ => none

/-- The opcodes that decide what runs next. -/
def controlArm : Op → Arm Outcome
  | .ifI | .ifS => .branch site (· != 0)
  | .ifNotI | .ifNotS => .branch site (· == 0)
  | .ifF => .branch site floatTrue
  | .ifNotF => .branch site (!floatTrue ·)
  | .goto => return .charge (.pure (.goto site.st.a))
  | .state => do
    let frame ← Arm.get .a 0
    let think ← Arm.get .b 0
    return .stateOp (.state frame ⟨think⟩)
  | .cState => do
    let first ← Arm.get .a 0
    let last ← Arm.get .b 0
    let core ← Arm.look
    return .stateOp (.cState first last (.new site.prnum core.x.func))
  | .cWState => do
    let first ← Arm.get .a 0
    let last ← Arm.get .b 0
    let core ← Arm.look
    return .stateOp (.cWState first last (.new site.prnum core.x.func))
  | .thinkTime => do
    let ent ← Arm.get .a 0
    let delay ← Arm.get .b 0
    return .stateOp (.thinkTime ent delay)
  | .switchF => .switch site .float
  | .switchV => .switch site .vector
  | .switchS => .switch site .string
  | .switchE | .switchFnc | .switchI => .switch site .int
  | .case => .case F site
  | .caseRange => .caseRange F site
  -- The rest returns or calls.
  | .return | .done => return .charge (.leaveFunction exitDepth)
  | _ => return .charge (.dispatch site)

/-- What the statement at `site` does. -/
def statement : Arm Outcome :=
  let op := site.st.op
  match (operandArm F site op).or (memoryArm F site op) with
  | some p => .falls p
  | none => controlArm F site exitDepth op

end Table

end Qcvm

import Qcvm.Lib.Arr

/-!
# Bytes and numbers

Machine words, the little-endian byte accesses of `bytes.rs` and the conversions of `num.rs`.
Memory words are `BitVec 32`; the `u32` counters and addresses of the Rust code are natural numbers
with the checked, saturating or wrapping addition the code uses. A `usize` holds every sum the code
forms of `u32` values, so `usize` arithmetic on them is plain addition.

The floating-point operations of the processor are a parameter, `FloatOps`: the model never looks
inside them, it only applies the same operation to the same bits.
-/

namespace Qcvm

open Lib

abbrev Byte := BitVec 8

abbrev Word := BitVec 32

abbrev DWord := BitVec 64

/-! ## `u32` counters -/

/-- `u32::MAX`. -/
def u32Max : Nat := 4294967295

/-- `u32::checked_add` (and `u32::try_from` of a sum). -/
def checkedAdd (a b : Nat) : Option Nat := if a + b ≤ u32Max then some (a + b) else none

/-- `u32::saturating_add`. -/
def saturatingAdd (a b : Nat) : Nat := min (a + b) u32Max

/-- `u32::wrapping_add`. -/
def wrappingAdd (a b : Nat) : Nat := (a + b) % (u32Max + 1)

/-- `u32::checked_mul`. -/
def checkedMul (a b : Nat) : Option Nat := if a * b ≤ u32Max then some (a * b) else none

/-- A checked sum is there exactly if it is in range. -/
lemma checkedAdd_eq_some {a b c : Nat} : checkedAdd a b = some c ↔ a + b ≤ u32Max ∧ a + b = c := by
  unfold checkedAdd
  split
  next h => simp [h]
  next h => simp [h]

/-- A checked product is there exactly if it is in range. -/
lemma checkedMul_eq_some {a b c : Nat} : checkedMul a b = some c ↔ a * b ≤ u32Max ∧ a * b = c := by
  unfold checkedMul
  split
  next h => simp [h]
  next h => simp [h]

/-- A sum in range does not wrap. -/
lemma wrappingAdd_of_le {a b : Nat} (h : a + b ≤ u32Max) : wrappingAdd a b = a + b :=
  Nat.mod_eq_of_lt (by omega)

/-! ## `i64` arithmetic -/

/-- `i64::MAX`. -/
def i64Max : Int := 2 ^ 63 - 1

/-- `i64::MIN`. -/
def i64Min : Int := -2 ^ 63

/-- The closest `i64`. -/
def clampI64 (z : Int) : Int := max i64Min (min i64Max z)

/-- `i64::saturating_add`. -/
def addI64 (a b : Int) : Int := clampI64 (a + b)

/-- `i64::saturating_sub`. -/
def subI64 (a b : Int) : Int := clampI64 (a - b)

/-- `i64::saturating_mul`. -/
def mulI64 (a b : Int) : Int := clampI64 (a * b)

/-- A number in range is not clamped. -/
lemma clampI64_eq {z : Int} (low : -9223372036854775808 ≤ z) (high : z ≤ 9223372036854775807) :
    clampI64 z = z := by
  unfold clampI64 i64Min i64Max
  omega

section

variable {a b : Int}

/-- A sum in range does not saturate. -/
lemma addI64_eq (low : -9223372036854775808 ≤ a + b) (high : a + b ≤ 9223372036854775807) :
    addI64 a b = a + b := clampI64_eq low high

/-- A difference in range does not saturate. -/
lemma subI64_eq (low : -9223372036854775808 ≤ a - b) (high : a - b ≤ 9223372036854775807) :
    subI64 a b = a - b := clampI64_eq low high

/-- A product in range does not saturate. -/
lemma mulI64_eq (low : -9223372036854775808 ≤ a * b) (high : a * b ≤ 9223372036854775807) :
    mulI64 a b = a * b := clampI64_eq low high

end

/-! ## Little-endian access (`bytes.rs`) -/

/-- `u32::to_le_bytes`. -/
def leBytes (w : Word) : List Byte :=
  [w.extractLsb' 0 8, w.extractLsb' 8 8, w.extractLsb' 16 8, w.extractLsb' 24 8]

@[simp] lemma length_leBytes (w : Word) : (leBytes w).length = 4 := rfl

/-- `u32::from_le_bytes` of the bytes `f 0` to `f 3`. -/
def leWord (f : Nat → Byte) : Word := f 3 ++ f 2 ++ f 1 ++ f 0

/-- Word `k` of a block of bytes. -/
def wordOf (bytes : List Byte) (k : Nat) : Word := leWord fun i => bytes.getD (4 * k + i) 0

/-- The word at byte offset `o`, whether or not it is in range. -/
def wordAt (data : Arr Byte) (o : Nat) : Word := leWord fun i => data.get (o + i)

/-- `u32_at`. -/
def u32At (data : Arr Byte) (off : Nat) : Option Word :=
  if off + 4 ≤ data.size then some (wordAt data off) else none

/-- `u16_at`. -/
def u16At (data : Arr Byte) (off : Nat) : Option Nat :=
  if off + 2 ≤ data.size then some (data.get (off + 1) ++ data.get off).toNat else none

/-- `put_u32`; an offset out of range writes nothing. -/
def putU32 (data : Arr Byte) (off : Nat) (value : Word) : Arr Byte := data.write off (leBytes value)

@[simp] lemma size_putU32 (data : Arr Byte) (off : Nat) (value : Word) :
    (putU32 data off value).size = data.size := rfl

/-- `cstr_at`: the bytes from `off` up to the first NUL or the end. -/
def cstrAt (data : Arr Byte) (off : Nat) : List Byte := data.takeUntil (· == 0) off

/-- A word depends on its four bytes alone. -/
lemma wordAt_congr {a b : Arr Byte} {o : Nat} (h : a.AgreeOn b o 4) : wordAt a o = wordAt b o := by
  simp only [wordAt, leWord]
  rw [h (o + 3) (by omega) (by omega), h (o + 2) (by omega) (by omega),
    h (o + 1) (by omega) (by omega), h (o + 0) (by omega) (by omega)]

/-- A word reads back from its bytes. -/
lemma leWord_leBytes (w : Word) : leWord (fun i => (leBytes w).getD i 0) = w := by
  simp only [leWord, leBytes]
  apply BitVec.eq_of_getLsbD_eq
  intro i lt
  simp only [List.getD_cons_succ, List.getD_cons_zero, BitVec.getLsbD_append,
    BitVec.getLsbD_extractLsb']
  grind

/-- A word that lies at `o` byte by byte. -/
lemma wordAt_eq {data : Arr Byte} {o : Nat} {w : Word}
    (bytes : ∀ i < 4, data.get (o + i) = (leBytes w).getD i 0) : wordAt data o = w := by
  refine Eq.trans ?_ (leWord_leBytes w)
  simp only [wordAt, leWord, bytes 0 (by omega), bytes 1 (by omega), bytes 2 (by omega),
    bytes 3 (by omega)]

/-- A word that is in range depends on the size and its four bytes. -/
lemma u32At_congr {a b : Arr Byte} {o : Nat} (size : a.size = b.size) (h : a.AgreeOn b o 4) :
    u32At a o = u32At b o := by
  rw [u32At, u32At, size, wordAt_congr h]

/-- A word that is put is read back. -/
lemma u32At_putU32_self {data : Arr Byte} {off : Nat} {v : Word} (fits : off + 4 ≤ data.size) :
    u32At (putU32 data off v) off = some v := by
  rw [u32At, size_putU32, if_pos fits, wordAt_eq fun i hi => ?_]
  rw [putU32, Arr.get_write_of_inside (by simpa using fits) (by omega)
    (by rw [length_leBytes]; omega), Nat.add_sub_cancel_left]
  rfl

/-- A word apart from one that is put is kept. -/
lemma u32At_putU32_of_apart {data : Arr Byte} {off off' : Nat} {v : Word}
    (apart : off + 4 ≤ off' ∨ off' + 4 ≤ off) : u32At (putU32 data off v) off' = u32At data off' :=
  u32At_congr rfl (Arr.agreeOn_write (by rw [length_leBytes]; omega))

/-! ## Floating point -/

/-- The floating-point operations of the processor, on bits: `f32` as a `Word`, `f64` as a
`DWord`. -/
structure FloatOps where
  /-- `f32` arithmetic. -/
  add : Word → Word → Word
  sub : Word → Word → Word
  mul : Word → Word → Word
  div : Word → Word → Word
  /-- `f32` comparisons. -/
  eq : Word → Word → Bool
  lt : Word → Word → Bool
  le : Word → Word → Bool
  /-- `i32 as f32`, `u32 as f32`, `i64 as f32`, `u64 as f32`. -/
  ofI32 : Word → Word
  ofU32 : Word → Word
  ofI64 : DWord → Word
  ofU64 : DWord → Word
  /-- `f32 as i32` where the value is in range. -/
  toI32 : Word → Word
  /-- `f64::from(f32)` and `f64 as f32`. -/
  widen : Word → DWord
  narrow : DWord → Word
  /-- `f64` arithmetic. -/
  addD : DWord → DWord → DWord
  subD : DWord → DWord → DWord
  mulD : DWord → DWord → DWord
  divD : DWord → DWord → DWord
  /-- `f64` comparisons. -/
  eqD : DWord → DWord → Bool
  ltD : DWord → DWord → Bool
  leD : DWord → DWord → Bool
  /-- `i64 as f64`, `u64 as f64`. -/
  ofI64D : DWord → DWord
  ofU64D : DWord → DWord
  /-- `f64 as i64` where the value is in range. -/
  toI64 : DWord → DWord

namespace FloatOps

variable (F : FloatOps)

/-- `f32::is_nan`. -/
def isNan (f : Word) : Bool := !F.eq f f

/-- `f64::is_nan`. -/
def isNanD (d : DWord) : Bool := !F.eqD d d

/-- `f2i`: NaN and values outside `-2^31 .. 2^31` give `i32::MIN`. -/
def f2i (f : Word) : Word :=
  if F.isNan f || !(F.le 0xCF000000 f && F.lt f 0x4F000000) then 0x80000000 else F.toI32 f

/-- `d2i64`: NaN and values outside `-2^63 .. 2^63` give `i64::MIN`. -/
def d2i64 (d : DWord) : DWord :=
  if F.isNanD d || !(F.leD 0xC3E0000000000000 d && F.ltD d 0x43E0000000000000) then
    0x8000000000000000
  else F.toI64 d

/-- `f2u`: a 64-bit signed conversion, then the low 32 bits. -/
def f2u (f : Word) : Word := (F.d2i64 (F.widen f)).setWidth 32

/-- `d2u64`. -/
def d2u64 (d : DWord) : DWord :=
  if F.isNanD d then 0x8000000000000000
  else if F.ltD d 0x43E0000000000000 then F.d2i64 d
  else F.d2i64 (F.subD d 0x43E0000000000000) ^^^ 0x8000000000000000

/-- `a > b`. -/
def gt (a b : Word) : Bool := F.lt b a

/-- `a >= b`. -/
def ge (a b : Word) : Bool := F.le b a

/-- `a != b`. -/
def ne (a b : Word) : Bool := !F.eq a b

/-- `a != b` on `f64`. -/
def neD (a b : DWord) : Bool := !F.eqD a b

/-- Operations that are the processor's on zeros and order non-negative numbers as it does, for
running code that needs no other arithmetic. -/
def onZero : FloatOps where
  add a b := if a = 0 then b else a
  sub a _ := a
  mul _ _ := 0
  div _ _ := 0
  eq a b := a == b
  lt a b := a.ult b
  le a b := a.ule b
  ofI32 _ := 0
  ofU32 _ := 0
  ofI64 _ := 0
  ofU64 _ := 0
  toI32 _ := 0
  widen _ := 0
  narrow _ := 0
  addD a b := if a = 0 then b else a
  subD a _ := a
  mulD _ _ := 0
  divD _ _ := 0
  eqD a b := a == b
  ltD a b := a.ult b
  leD a b := a.ule b
  ofI64D _ := 0
  ofU64D _ := 0
  toI64 _ := 0

end FloatOps

/-- `float_true`: the value with its sign bit masked off is non-zero. -/
def floatTrue (bits : Word) : Bool := bits &&& 0x7FFFFFFF != 0

/-- `fbool`: 1.0 or 0.0. -/
def fbool (b : Bool) : Word := if b then 0x3F800000 else 0

/-- `ibool`: 1 or 0. -/
def ibool (b : Bool) : Word := if b then 1 else 0

/-- `join64`: the low word first. -/
def join64 (lo hi : Word) : DWord := hi ++ lo

/-- `split64`: the low word first. -/
def split64 (v : DWord) : Word × Word := (v.setWidth 32, (v >>> 32).setWidth 32)

end Qcvm

import Mathlib.Data.List.Infix
import Mathlib.Data.List.TakeWhile
import Qcvm.Progs.Load
import Qcvm.Stdlib.Digits

/-!
# URI escapes

`uri_escape` and `uri_unescape` of `stdlib/string.rs`. Each stops at an output limit of its own, which
it checks before it writes a byte or an escape; the decoder's is the longest output of the encoder.
-/

namespace Qcvm.Stdlib

open Lib

/-- `%`. -/
def percent : Byte := 37

/-- A byte that `uri_escape` leaves as it is. -/
def isUnreserved (c : Byte) : Bool := isAlphanumeric c || c = 46 || c = 45 || c = 95 || c = 126

/-- A digit of `HEX`. -/
def upperHex (v : Nat) : Byte := (ascii "0123456789ABCDEF").getD v 48

/-- What `uri_escape` writes for a byte. -/
def uriByte (c : Byte) : List Byte :=
  if isUnreserved c then [c] else [percent, upperHex (c.toNat / 16), upperHex (c.toNat % 16)]

/-- The loop of `uri_escape`, which has written so much. -/
def uriEscapeLoop (written : Nat) : List Byte → List Byte
  | [] => []
  | c :: s =>
    if written ≥ 8188 then []
    else uriByte c ++ uriEscapeLoop (written + (uriByte c).length) s

/-- `uri_escape`. -/
def uriEscape (s : List Byte) : List Byte := uriEscapeLoop 0 s

/-- `hex_val`. -/
def hexVal (c : Byte) : Nat := (digitOf 16 c).getD 0

/-- A byte of the text, if it is a hexadecimal digit. -/
def hexAt (s : List Byte) (i : Nat) : Option Byte := s[i]?.filter fun c => (digitOf 16 c).isSome

/-- The loop of `uri_unescape`, which has written so much. -/
def uriUnescapeLoop (written : Nat) (s : List Byte) : List Byte :=
  match s with
  | [] => []
  | c :: s =>
    if written ≥ 8190 then []
    else
      match decide (c = percent), hexAt s 0, hexAt s 1 with
      | true, some h, some l =>
        BitVec.ofNat 8 (hexVal h * 16 + hexVal l) :: uriUnescapeLoop (written + 1) (s.drop 2)
      | _, _, _ => c :: uriUnescapeLoop (written + 1) s
termination_by s.length

/-- `uri_unescape`: a decoded NUL ends the string. -/
def uriUnescape (s : List Byte) : List Byte := (uriUnescapeLoop 0 s).takeWhile (· ≠ 0)

/-- Text of unreserved characters and complete escapes. -/
inductive Escaped : List Byte → Prop where
  | nil : Escaped []
  | plain {c : Byte} {s : List Byte} : isUnreserved c → Escaped s → Escaped (c :: s)
  | escape {h l : Byte} {s : List Byte} : h ∈ ascii "0123456789ABCDEF" →
    l ∈ ascii "0123456789ABCDEF" → Escaped s → Escaped (percent :: h :: l :: s)

variable {s t u : List Byte} {c : Byte} {written : Nat}

/-! ## What is written -/

lemma length_uriByte (c : Byte) : 1 ≤ (uriByte c).length ∧ (uriByte c).length ≤ 3 := by
  unfold uriByte
  split
  next => exact ⟨Nat.le_refl 1, Nat.le_add_left 1 2⟩
  next => exact ⟨Nat.le_add_left 1 2, Nat.le_refl 3⟩

lemma length_le_uri (s : List Byte) : s.length ≤ (s.flatMap uriByte).length := by
  induction s with
  | nil => exact Nat.le_refl 0
  | cons c s ih =>
    have one := (length_uriByte c).1
    rw [List.flatMap_cons, List.length_append, List.length_cons]
    omega

/-- The encoder writes a prefix, whole bytes only, and all of the string if three times its length
fits. -/
lemma uriEscapeLoop_eq (s : List Byte) (few : written ≤ 8190) :
    ∃ u, u <+: s ∧ uriEscapeLoop written s = u.flatMap uriByte ∧
      written + (u.flatMap uriByte).length ≤ 8190 ∧ (written + 3 * s.length ≤ 8190 → u = s) := by
  induction s generalizing written with
  | nil => exact ⟨[], List.prefix_rfl, rfl, few, fun _ => rfl⟩
  | cons c s ih =>
    unfold uriEscapeLoop
    split
    next full =>
      refine ⟨[], List.nil_prefix, rfl, few, fun fits => ?_⟩
      rw [List.length_cons] at fits
      omega
    next room =>
      obtain ⟨one, three⟩ := length_uriByte c
      obtain ⟨u, part, same, short, all⟩ := @ih (written + (uriByte c).length) (by omega)
      refine ⟨c :: u, List.prefix_cons_inj c |>.mpr part, ?_, ?_, fun fits => ?_⟩
      · rw [same, List.flatMap_cons]
      · rw [List.flatMap_cons, List.length_append]
        omega
      · rw [List.length_cons] at fits
        rw [all (by omega)]

lemma upperHex_mem : ∀ v < 16, upperHex v ∈ ascii "0123456789ABCDEF" := by decide +kernel

/-- What is written for a byte goes before escaped text. -/
lemma Escaped.byte (h : Escaped s) (c : Byte) : Escaped (uriByte c ++ s) := by
  have lt := c.isLt
  unfold uriByte
  split
  next plain => exact .plain plain h
  next =>
    exact .escape (upperHex_mem _ (by omega)) (upperHex_mem _ (by omega)) h

lemma escaped_flatMap (u : List Byte) : Escaped (u.flatMap uriByte) := by
  induction u with
  | nil => exact .nil
  | cons c u ih =>
    rw [List.flatMap_cons]
    exact ih.byte c

/-! ## What is read back -/

/-- A digit that was written is read as its value. -/
lemma hexAt_upperHex : ∀ v < 16, (digitOf 16 (upperHex v)) = some v := by decide +kernel

lemma hexAt_of_digit {i v : Nat} {d : Byte} (here : s[i]? = some d) (digit : digitOf 16 d = some v) :
    hexAt s i = some d ∧ hexVal d = v := by
  unfold hexAt hexVal
  rw [here, digit]
  exact ⟨Option.filter_some_pos (by rw [digit]; rfl), rfl⟩

/-- The decoder reads the byte that was written, whatever follows. -/
lemma uriUnescapeLoop_byte (room : written < 8190) (c : Byte) (s : List Byte) :
    uriUnescapeLoop written (uriByte c ++ s) = c :: uriUnescapeLoop (written + 1) s := by
  have lt := c.isLt
  unfold uriByte
  split
  next plain =>
    have other : decide (c = percent) = false := by
      refine decide_eq_false fun e => ?_
      rw [e] at plain
      exact absurd plain (by decide)
    rw [List.singleton_append, uriUnescapeLoop.eq_def]
    dsimp only
    rw [if_neg (Nat.not_le.mpr room), other]
  next =>
    obtain ⟨high, highVal⟩ := hexAt_of_digit (s := upperHex (c.toNat / 16) :: upperHex (c.toNat % 16) :: s)
      (List.getElem?_cons_zero) (hexAt_upperHex (c.toNat / 16) (by omega))
    obtain ⟨low, lowVal⟩ := hexAt_of_digit (s := upperHex (c.toNat / 16) :: upperHex (c.toNat % 16) :: s)
      (i := 1) rfl (hexAt_upperHex (c.toNat % 16) (by omega))
    have byte : BitVec.ofNat 8 (c.toNat / 16 * 16 + c.toNat % 16) = c := by
      rw [Nat.div_add_mod', BitVec.ofNat_toNat, BitVec.setWidth_eq]
    show uriUnescapeLoop written (percent :: upperHex (c.toNat / 16) :: upperHex (c.toNat % 16) :: s) = _
    rw [uriUnescapeLoop.eq_def]
    dsimp only
    rw [if_neg (Nat.not_le.mpr room), high, low, decide_eq_true rfl]
    dsimp only
    rw [highVal, lowVal, byte]
    rfl

lemma uriUnescapeLoop_flatMap (u : List Byte) (room : written + u.length ≤ 8190) :
    uriUnescapeLoop written (u.flatMap uriByte) = u := by
  induction u generalizing written with
  | nil => rw [List.flatMap_nil, uriUnescapeLoop.eq_def]
  | cons c u ih =>
    rw [List.length_cons] at room
    rw [List.flatMap_cons, uriUnescapeLoop_byte (by omega), ih (by omega)]

/-- Escaping writes unreserved characters and complete escapes, and is undone up to where it stopped;
it writes all of a string if three times its length fits. -/
theorem uri_roundTrip {s : List Byte} (text : 0 ∉ s) :
    uriUnescape (uriEscape s) <+: s ∧ (3 * s.length ≤ 8188 → uriUnescape (uriEscape s) = s) ∧
      Escaped (uriEscape s) := by
  obtain ⟨u, part, same, short, all⟩ := @uriEscapeLoop_eq 0 s (Nat.zero_le _)
  have few := length_le_uri u
  have whole : u.takeWhile (· ≠ 0) = u := by
    refine List.takeWhile_eq_self_iff.mpr fun c mem => decide_eq_true ?_
    rintro rfl
    exact text (part.subset mem)
  have read : uriUnescape (uriEscape s) = u := by
    unfold uriUnescape uriEscape
    rw [same, uriUnescapeLoop_flatMap u (by omega), whole]
  refine ⟨read ▸ part, fun fits => ?_, ?_⟩
  · rw [read]
    exact all (by omega)
  · unfold uriEscape
    rw [same]
    exact escaped_flatMap u

theorem uri_roundTrip_slash : uriUnescape (uriEscape (ascii "a/b%")) <+: ascii "a/b%" ∧
    (3 * (ascii "a/b%").length ≤ 8188 → uriUnescape (uriEscape (ascii "a/b%")) = ascii "a/b%") ∧
      Escaped (uriEscape (ascii "a/b%")) :=
  uri_roundTrip (by decide)

end Qcvm.Stdlib

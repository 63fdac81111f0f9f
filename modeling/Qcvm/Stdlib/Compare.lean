import Qcvm.Stdlib.Accounting
import Qcvm.Stdlib.Format
import Qcvm.Stdlib.Substring

/-!
# Comparing strings

`strncmp` and `strcasecmp` of `stdlib/string.rs` compare windows of two strings as C does: byte by byte, up
to a NUL or a limit, with ASCII letters folded or not. This is the lexicographic order of what the windows
show, and the order in which `buf_sort` of `stdlib/strbuf.rs` leaves a buffer.
-/

namespace Qcvm.Stdlib

open Lib

/-- A byte as it is compared. -/
def foldByte (fold : Bool) (b : Byte) : Byte := if fold then asciiLower b else b

/-- The loop of `c_strncmp`; past its end a string reads as NUL. -/
def strncmpFrom (fold : Bool) : Nat → List Byte → List Byte → Int
  | 0, _, _ => 0
  | n + 1, a, b =>
    let x := foldByte fold (a.headD 0)
    let y := foldByte fold (b.headD 0)
    if x ≠ y ∨ x = 0 then (x.toNat : Int) - y.toNat else strncmpFrom fold n a.tail b.tail

/-- `c_strncmp`. -/
def cStrncmp (a b : List Byte) (n : Option Nat) (fold : Bool) : Int :=
  strncmpFrom fold (n.getD usizeMax) a b

/-- An offset into a string, its length if it is out of range. -/
def clampOffset (ofs : Word) (s : List Byte) : Nat :=
  if ofs.slt 0 then s.length else if ofs.toNat ≤ s.length then ofs.toNat else s.length

/-- `compare_window`: the byte offsets and the byte limit that `len`, `s1ofs` and `s2ofs` mean. -/
def compareWindow (cs : Charset) (argc : Nat) (a b : List Byte) (len s1ofs s2ofs : Word) :
    Nat × Nat × Option Nat :=
  let aofs := if argc > 3 then s1ofs else 0
  let bofs := if argc > 4 then s2ofs else 0
  if cs.utf8 then
    let aofs := if aofs ≠ 0 then byteOfs a aofs cs.scheme else 0
    let bofs := if bofs ≠ 0 then byteOfs b bofs cs.scheme else 0
    let la := byteOfs (a.drop aofs) len cs.scheme
    let lb := byteOfs (b.drop bofs) len cs.scheme
    (aofs, bofs, some (max la lb))
  else (clampOffset aofs a, clampOffset bofs b, if len.slt 0 then none else some len.toNat)

/-- What is compared: the whole strings, or with a third argument windows of them. -/
def compared (cs : Charset) (argc : Nat) (a b : List Byte) (len s1ofs s2ofs : Word) :
    List Byte × List Byte × Option Nat :=
  if argc > 2 then
    let (aofs, bofs, n) := compareWindow cs argc a b len s1ofs s2ofs
    (a.drop aofs, b.drop bofs, n)
  else (a, b, none)

/-- `strncmp`, before the result becomes a float. -/
def strncmp (cs : Charset) (argc : Nat) (a b : List Byte) (len s1ofs s2ofs : Word) : Int :=
  let (x, y, n) := compared cs argc a b len s1ofs s2ofs
  cStrncmp x y n false

/-- `strcasecmp`, before the result becomes a float. -/
def strcasecmp (cs : Charset) (argc : Nat) (a b : List Byte) (len s1ofs s2ofs : Word) : Int :=
  let (x, y, n) := compared cs argc a b len s1ofs s2ofs
  (cStrncmp x y n true).sign

/-! ## The order -/

/-- What a comparison sees of a string: its bytes before the first NUL, as many as the limit allows. -/
def shown (n : Option Nat) (fold : Bool) (s : List Byte) : List Byte :=
  ((s.takeWhile (· != 0)).take (n.getD usizeMax)).map (foldByte fold)

/-- A number has the sign of a comparison. -/
structure Orders (r : Int) (x y : List Byte) : Prop where
  neg : r < 0 ↔ x < y
  zero : r = 0 ↔ x = y
  pos : 0 < r ↔ y < x

section Order

variable {a b : Byte} {x y s : List Byte} {r : Int} {fold : Bool} {n : Option Nat}

/-- Folding the case of a byte gives zero for zero alone. -/
lemma foldByte_eq_zero : foldByte fold a = 0 ↔ a = 0 := by
  cases fold with
  | false => exact Iff.rfl
  | true => revert a; decide

/-- Only one of the three cases holds. -/
lemma Orders.of_cases (cases' : r < 0 ∧ x < y ∨ r = 0 ∧ x = y ∨ 0 < r ∧ y < x) : Orders r x y := by
  rcases cases' with ⟨sign, lt⟩ | ⟨rfl, rfl⟩ | ⟨sign, lt⟩
  · have ne : x ≠ y := by
      rintro rfl
      exact List.lt_irrefl x lt
    exact ⟨iff_of_true sign lt, iff_of_false (by omega) ne,
      iff_of_false (by omega) (List.lt_asymm lt)⟩
  · exact ⟨iff_of_false (by omega) (List.lt_irrefl x), iff_of_true rfl rfl,
      iff_of_false (by omega) (List.lt_irrefl x)⟩
  · have ne : x ≠ y := by
      rintro rfl
      exact List.lt_irrefl x lt
    exact ⟨iff_of_false (by omega) (List.lt_asymm lt), iff_of_false (by omega) ne,
      iff_of_true sign lt⟩

/-- An order survives a common first byte. -/
lemma Orders.cons (h : Orders r x y) : Orders r (a :: x) (a :: y) where
  neg := h.neg.trans List.cons_lt_cons_self.symm
  zero := h.zero.trans (List.cons_inj_right a).symm
  pos := h.pos.trans List.cons_lt_cons_self.symm

/-- Bytes that differ decide. -/
lemma orders_of_ne (differ : a ≠ b) : Orders ((a.toNat : Int) - b.toNat) (a :: x) (b :: y) := by
  have values : a.toNat ≠ b.toNat := fun same => differ (BitVec.eq_of_toNat_eq same)
  refine .of_cases ?_
  rcases Nat.lt_or_gt_of_ne values with less | more
  · exact .inl ⟨by omega, List.cons_lt_cons_iff.mpr (.inl (BitVec.lt_def.mpr less))⟩
  · exact .inr (.inr ⟨by omega, List.cons_lt_cons_iff.mpr (.inl (BitVec.lt_def.mpr more))⟩)

/-- What is shown of a string whose first byte is no NUL. -/
lemma shown_cons (some : a ≠ 0) {k : Nat} :
    (((a :: s).takeWhile (· != 0)).take (k + 1)).map (foldByte fold) =
      foldByte fold a :: ((s.takeWhile (· != 0)).take k).map (foldByte fold) := by
  rw [List.takeWhile_cons_of_pos (by simpa using some), List.take_succ_cons, List.map_cons]

/-- A string starts with a NUL, or is empty, or shows its first byte. -/
lemma head_cases (s : List Byte) : s.headD 0 = 0 ∧ s.takeWhile (· != 0) = [] ∨
    ∃ a t, s = a :: t ∧ a ≠ 0 := by
  cases s with
  | nil => exact .inl ⟨rfl, rfl⟩
  | cons a t =>
    by_cases nul : a = 0
    · subst nul
      exact .inl ⟨rfl, rfl⟩
    · exact .inr ⟨a, t, rfl, nul⟩

/-- The loop orders what it sees. -/
lemma orders_strncmpFrom (k : Nat) (x y : List Byte) : Orders (strncmpFrom fold k x y)
    (((x.takeWhile (· != 0)).take k).map (foldByte fold))
    (((y.takeWhile (· != 0)).take k).map (foldByte fold)) := by
  induction k generalizing x y with
  | zero => exact .of_cases (.inr (.inl ⟨rfl, rfl⟩))
  | succ k ih =>
    have zero : foldByte fold 0 = 0 := foldByte_eq_zero.mpr rfl
    have value : (0 : Byte).toNat = 0 := rfl
    unfold strncmpFrom
    dsimp only
    rcases head_cases x with ⟨nul, none⟩ | ⟨a, s, rfl, some⟩
    · rw [nul, none, zero]
      rcases head_cases y with ⟨nul', none'⟩ | ⟨b, t, rfl, some'⟩
      · rw [nul', none', zero, if_pos (.inr rfl)]
        exact .of_cases (.inr (.inl ⟨rfl, rfl⟩))
      · rw [if_pos (.inr rfl), shown_cons some']
        have positive : 0 < (foldByte fold b).toNat := Nat.pos_of_ne_zero fun e =>
          some' (foldByte_eq_zero.mp (BitVec.eq_of_toNat_eq e))
        refine .of_cases (.inl ⟨?_, List.nil_lt_cons _ _⟩)
        rw [List.headD_cons, value]
        omega
    · have visible : foldByte fold a ≠ 0 := fun e => some (foldByte_eq_zero.mp e)
      rw [List.headD_cons, shown_cons some]
      rcases head_cases y with ⟨nul', none'⟩ | ⟨b, t, rfl, some'⟩
      · rw [nul', none', zero, if_pos (.inl visible)]
        have positive : 0 < (foldByte fold a).toNat := Nat.pos_of_ne_zero fun e =>
          visible (BitVec.eq_of_toNat_eq e)
        refine .of_cases (.inr (.inr ⟨?_, List.nil_lt_cons _ _⟩))
        rw [value]
        omega
      · rw [List.headD_cons, shown_cons some']
        by_cases same : foldByte fold a = foldByte fold b
        · rw [if_neg (not_or.mpr ⟨not_not.mpr same, visible⟩), ← same]
          exact (ih s t).cons
        · rw [if_pos (.inl same)]
          exact orders_of_ne same

/-- `c_strncmp` orders what it shows of the strings. -/
lemma orders_cStrncmp (n : Option Nat) (fold : Bool) (x y : List Byte) :
    Orders (cStrncmp x y n fold) (shown n fold x) (shown n fold y) := orders_strncmpFrom _ _ _

/-- The sign of an order is one. -/
lemma Orders.sign (h : Orders r x y) : Orders r.sign x y where
  neg := Int.sign_neg_iff.trans h.neg
  zero := Int.sign_eq_zero_iff_zero.trans h.zero
  pos := Int.sign_pos_iff.trans h.pos

/-- **String comparison is lexicographic**: on the windows that its arguments mean, `strncmp` has the sign
of the comparison of what they show, and `strcasecmp` is the sign of that with letters in lower case. -/
theorem comparisons_lexicographic (cs : Charset) (argc : Nat) (a b : List Byte) (len s1ofs s2ofs : Word) :
    ∃ x y n, compared cs argc a b len s1ofs s2ofs = (x, y, n) ∧
      Orders (strncmp cs argc a b len s1ofs s2ofs) (shown n false x) (shown n false y) ∧
      Orders (strcasecmp cs argc a b len s1ofs s2ofs) (shown n true x) (shown n true y) := by
  unfold strncmp strcasecmp
  obtain ⟨x, y, n⟩ := compared cs argc a b len s1ofs s2ofs
  exact ⟨x, y, n, rfl, orders_cStrncmp n false x y, (orders_cStrncmp n true x y).sign⟩

end Order

/-! ## Sorting a buffer -/

namespace Containers

variable {cfg : Config} {c : Containers} {a : Args} {limit : Option Nat} {back : Bool}
  {x y z : List Byte}

/-- The limit of `buf_sort`: none unless `prefixlen` is positive. -/
def sortLimit (a : Args) : Option Nat := if (a.int 1).toInt ≤ 0 then none else some (a.int 1).toNat

/-- The first bytes of a string, or all. -/
def firstBytes (limit : Option Nat) (s : List Byte) : List Byte := limit.elim s fun n => s.take n

/-- The order of `buf_sort` is that of the first bytes, one way or the other. -/
lemma sortLe_eq : sortLe limit back x y = if back then decide (firstBytes limit y ≤ firstBytes limit x)
    else decide (firstBytes limit x ≤ firstBytes limit y) := rfl

/-- The order of `buf_sort` is transitive. -/
lemma sortLe_trans (h : sortLe limit back x y = true) (h' : sortLe limit back y z = true) :
    sortLe limit back x z = true := by
  rw [sortLe_eq] at h h' ⊢
  cases back with
  | false => exact decide_eq_true (List.le_trans (of_decide_eq_true h) (of_decide_eq_true h'))
  | true => exact decide_eq_true (List.le_trans (of_decide_eq_true h') (of_decide_eq_true h))

/-- The order of `buf_sort` is total. -/
lemma sortLe_total (x y : List Byte) : (sortLe limit back x y || sortLe limit back y x) = true := by
  rw [sortLe_eq, sortLe_eq, Bool.or_eq_true]
  cases back with
  | false => exact (List.le_total _ _).imp decide_eq_true decide_eq_true
  | true => exact (List.le_total _ _).imp decide_eq_true decide_eq_true

/-- Entries with the same first bytes are in order both ways. -/
lemma sortLe_of_eq (same : firstBytes limit x = firstBytes limit y) : sortLe limit back x y = true := by
  rw [sortLe_eq, same]
  cases back with
  | false => exact decide_eq_true (List.le_refl _)
  | true => exact decide_eq_true (List.le_refl _)

/-- Strings with the same first bytes keep their order. -/
lemma filter_mergeSort (l : List (List Byte)) (first : List Byte) :
    (l.mergeSort (sortLe limit back)).filter (fun s => firstBytes limit s = first) =
      l.filter fun s => firstBytes limit s = first := by
  have alike : (l.filter fun s => firstBytes limit s = first).Pairwise
      fun s t => sortLe limit back s t = true := by
    refine (List.pairwise_of_forall_mem_list fun s mem t mem' => sortLe_of_eq ?_)
    rw [of_decide_eq_true (List.mem_filter.mp mem).2, of_decide_eq_true (List.mem_filter.mp mem').2]
  have kept : (l.filter fun s => firstBytes limit s = first).Sublist
      (l.mergeSort (sortLe limit back)) :=
    List.sublist_mergeSort (fun x y z h h' => @sortLe_trans limit back x y z h h')
      (@sortLe_total limit back) alike List.filter_sublist
  have again := kept.filter fun s => firstBytes limit s = first
  rw [List.filter_filter] at again
  simp only [Bool.and_self] at again
  refine (again.eq_of_length ?_).symm
  exact ((List.mergeSort_perm l (sortLe limit back)).filter _).length_eq.symm

/-- A limit is compared as `strncmp` compares with that limit. -/
lemma shown_eq (free : 0 ∉ x) (short : x.length ≤ usizeMax) :
    shown limit false x = firstBytes limit x := by
  have whole : x.takeWhile (· != 0) = x := List.takeWhile_eq_self_iff.mpr fun b mem => by
    rw [bne_iff_ne]
    rintro rfl
    exact free mem
  unfold shown firstBytes
  rw [whole]
  have plain : foldByte false = id := rfl
  rw [plain, List.map_id]
  cases limit with
  | none => exact List.take_of_length_le short
  | some n => rfl

/-- A buffer is sorted in place, and the charge shrinks with it. -/
lemma bufSort_eq (h : Accounted cfg c) {i : Nat} {buf : StrBuf} (arg : c.bufArg a 0 = some i)
    (here : Slots.get c.bufs i = some buf) : ∃ k, c.bufSort cfg a = ⟨{ c with containerBytes := k }.setBuf i
      (.fromStrings (((buf.strings.filterMap id).mergeSort (sortLe (sortLimit a) (a.nonzero 2))).map some)),
      .unset, []⟩ := by
  have held := h.bufs i buf here
  unfold bufSort
  rw [arg]
  dsimp only
  rw [here]
  dsimp only
  rw [show (if (a.int 1).toInt ≤ 0 then none else some (a.int 1).toNat) = sortLimit a from rfl]
  have less := (@cost_sorted buf.strings (sortLe (sortLimit a) (a.nonzero 2))).1
  generalize ((buf.strings.filterMap id).mergeSort (sortLe (sortLimit a) (a.nonzero 2))).map some =
    sorted at less
  have there : Slots.get (c.setBuf i { buf with strings := [] }).bufs i =
      some { buf with strings := [] } := by
    rw [Slots.get_eq_some]
    exact List.getElem?_set_self (Slots.lt_of_get here)
  have shrinks : ((c.setBuf i { buf with strings := [] }).recharge cfg buf.bytes
      (StrBuf.fromStrings sorted).bytes).1 = true :=
    recharge_shrinks (held.bytes ▸ less) h.limit
  obtain ⟨k, changed, -⟩ := (@recharge_spec cfg (c.setBuf i { buf with strings := [] }) buf.bytes
    (StrBuf.fromStrings sorted).bytes (h.buf_le here) h.limit).2 shrinks
  refine ⟨k, ?_⟩
  unfold replace
  simp only [there, shrinks, if_true, changed]
  simp only [setBuf, List.set_set]

/-- `strncmp` with the limit compares the first bytes. -/
lemma orders_firstBytes (free : 0 ∉ x ∧ x.length ≤ usizeMax) (free' : 0 ∉ y ∧ y.length ≤ usizeMax) :
    Orders (cStrncmp x y limit false) (firstBytes limit x) (firstBytes limit y) := by
  have orders := orders_cStrncmp limit false x y
  rwa [shown_eq free.1 free.2, shown_eq free'.1 free'.2] at orders

/-- **`buf_sort` sorts.** After any calls of the builtins, sorting a buffer is never refused and touches no
other buffer; its entries, without the holes, are in the order of their first `prefixlen` bytes, or in the
opposite one, and entries with the same first bytes keep their order. For entries without NULs this is the
order of `strncmp` with `prefixlen` as the limit. -/
theorem bufSort_sorts (calls : List (Builtin × Args)) {i : Nat} {buf : StrBuf}
    (arg : (fresh.run cfg calls).bufArg a 0 = some i)
    (here : Slots.get (fresh.run cfg calls).bufs i = some buf) :
    ∃ (sorted : List (List Byte)) (k : Nat), (fresh.run cfg calls).bufSort cfg a =
        ⟨{ fresh.run cfg calls with containerBytes := k }.setBuf i (.fromStrings (sorted.map some)), .unset, []⟩ ∧
      sorted.Perm (buf.strings.filterMap id) ∧
      sorted.Pairwise (fun s t => if a.nonzero 2 then firstBytes (sortLimit a) t ≤ firstBytes (sortLimit a) s
        else firstBytes (sortLimit a) s ≤ firstBytes (sortLimit a) t) ∧
      (∀ first, sorted.filter (fun t => firstBytes (sortLimit a) t = first) =
        (buf.strings.filterMap id).filter fun t => firstBytes (sortLimit a) t = first) ∧
      ((∀ s ∈ buf.strings.filterMap id, 0 ∉ s ∧ s.length ≤ usizeMax) →
        sorted.Pairwise (fun s t => if a.nonzero 2 then 0 ≤ cStrncmp s t (sortLimit a) false
          else cStrncmp s t (sortLimit a) false ≤ 0) ∧
        ∀ s ∈ sorted, sorted.filter (fun t => cStrncmp s t (sortLimit a) false = 0) =
          (buf.strings.filterMap id).filter fun t => cStrncmp s t (sortLimit a) false = 0) := by
  obtain ⟨k, sorts⟩ := bufSort_eq (accounted_run accounted_fresh) arg here
  have perm := List.mergeSort_perm (buf.strings.filterMap id) (sortLe (sortLimit a) (a.nonzero 2))
  have ordered := List.pairwise_mergeSort (fun x y z h h' => @sortLe_trans (sortLimit a) (a.nonzero 2) x y z h h')
    (@sortLe_total (sortLimit a) (a.nonzero 2)) (buf.strings.filterMap id)
  refine ⟨_, k, sorts, perm, ordered.imp fun {s t} le => ?_, filter_mergeSort _,
    fun free => ⟨ordered.imp_of_mem fun {s t} mem mem' le => ?_, fun s mem => ?_⟩⟩
  · rw [sortLe_eq] at le
    by_cases back : a.nonzero 2 = true
    · rw [if_pos back] at le ⊢
      exact of_decide_eq_true le
    · rw [if_neg back] at le ⊢
      exact of_decide_eq_true le
  · have orders := @orders_firstBytes (sortLimit a) s t (free s (perm.mem_iff.mp mem))
      (free t (perm.mem_iff.mp mem'))
    rw [sortLe_eq] at le
    by_cases back : a.nonzero 2 = true
    · rw [if_pos back] at le ⊢
      by_contra less
      exact List.not_lt.mpr (of_decide_eq_true le) (orders.neg.mp (by omega))
    · rw [if_neg back] at le ⊢
      by_contra more
      exact List.not_lt.mpr (of_decide_eq_true le) (orders.pos.mp (by omega))
  · have alike (t : List Byte) (inside : t ∈ buf.strings.filterMap id) :
        decide (cStrncmp s t (sortLimit a) false = 0) =
          decide (firstBytes (sortLimit a) t = firstBytes (sortLimit a) s) := by
      have orders := @orders_firstBytes (sortLimit a) s t (free s (perm.mem_iff.mp mem)) (free t inside)
      exact decide_eq_decide.mpr (orders.zero.trans eq_comm)
    rw [List.filter_congr fun t inside => alike t inside,
      List.filter_congr fun t inside => alike t (perm.mem_iff.mp inside)]
    exact filter_mergeSort _ _

/-- Arguments that are zeros, and one text. -/
def textArgs (argc : Nat) (text : List Byte) : Args :=
  ⟨argc, fun _ => text, fun _ => 0, fun _ => 0, fun _ => false, fun _ => zero⟩

/-- Two entries are stored in a new buffer and sorted. -/
theorem bufSort_sorts_two : ∃ (sorted : List (List Byte)) (k : Nat),
    (fresh.run ⟨1, 4, 1, 4096, false⟩ [(.bufCreate, textArgs 0 []), (.bufstrAdd, textArgs 3 [98]),
      (.bufstrAdd, textArgs 3 [97])]).bufSort ⟨1, 4, 1, 4096, false⟩ (textArgs 3 []) =
        ⟨{ fresh.run ⟨1, 4, 1, 4096, false⟩ [(.bufCreate, textArgs 0 []), (.bufstrAdd, textArgs 3 [98]),
          (.bufstrAdd, textArgs 3 [97])] with containerBytes := k }.setBuf 0
            (.fromStrings (sorted.map some)), .unset, []⟩ ∧
      sorted.Perm [[98], [97]] ∧ sorted.Pairwise (fun s t => cStrncmp s t none false ≤ 0) := by
  obtain ⟨sorted, k, sorts, perm, -, -, plain⟩ := @bufSort_sorts ⟨1, 4, 1, 4096, false⟩ (textArgs 3 [])
    [(.bufCreate, textArgs 0 []), (.bufstrAdd, textArgs 3 [98]), (.bufstrAdd, textArgs 3 [97])] 0
    ⟨[some [98], some [97]], 34⟩ rfl rfl
  exact ⟨sorted, k, sorts, perm, (plain (by decide)).1⟩

end Containers

end Qcvm.Stdlib

import Qcvm.Vm.Blocks
import Qcvm.Vm.Boot
import Qcvm.Vm.Words

/-!
# Load-time relocation

The loader of a VM relocates globals definition by definition, so a word is relocated once for every
definition that names it. Where the definitions of a word agree on its type this comes to iterating
one rewrite of the word, and the word ends up relocated once exactly if the iterations after the
first change nothing.
-/

namespace Qcvm

open Lib

namespace Program

variable (p : Program)

/-- The definitions that name a global word. -/
def naming (w : Nat) : List Def := p.globalDefs.filter (·.ofs = w)

/-- The definitions that name one word agree on its type. -/
def Agreeing : Prop := ∀ d ∈ p.globalDefs, ∀ d' ∈ p.globalDefs, d.ofs = d'.ofs → d.ty = d'.ty

/-- The word is `thisprogs` or `__ext__fasttrackarrays`. -/
def Patched (w : Nat) : Prop := p.special.thisprogs = some w ∨ p.special.fasttrackarrays = some w

end Program

/-- The relocation of a pointer. -/
def relocatePointer (gbase : Nat) (v : Word) : Word := (v &&& 0x7FFFFFFF) + BitVec.ofNat 32 gbase

/-- The image of a field under a field map. -/
def fieldImage (map : FieldMap) (v : Word) : Word :=
  ((map.lookup v.toNat).map (BitVec.ofNat 32)).getD v

/-- The word is the extern function of some progs that another progs defines. -/
def Core.ExternLink (core : Core) (at' : Nat) : Prop := ∃ v, (at', v) ∈ externWrites core

/-- Every relocatable pointer is relocated once, in a progs with its globals at `gbase`. -/
def Program.PointersRelocated (p : Program) (m : Memory) (gbase : Nat) (link : Nat → Prop) : Prop :=
  ∀ d ∈ p.globalDefs, isPointerReloc p.globals d → ¬p.Patched d.ofs → ¬link (gbase + 4 * d.ofs) →
    m.g (gbase + 4 * d.ofs) = relocatePointer gbase (p.globals.get d.ofs)

/-- Every typed global is relocated once, in progs `pr` with its strings at `sbase` and its globals
at `gbase`. -/
structure Program.Relocated (p : Program) (m : Memory) (gbase sbase pr : Nat) (map : FieldMap)
    (link : Nat → Prop) : Prop where
  pointers : p.PointersRelocated m gbase link
  fields : ∀ d ∈ p.globalDefs, d.ty = .field → d.ofs < p.globals.size → ¬p.Patched d.ofs →
    ¬link (gbase + 4 * d.ofs) → m.g (gbase + 4 * d.ofs) = fieldImage map (p.globals.get d.ofs)
  strings : ∀ d ∈ p.globalDefs, d.ty = .string → d.ofs < p.globals.size → ¬p.Patched d.ofs →
    ¬link (gbase + 4 * d.ofs) → p.globals.get d.ofs ≠ 0 →
    (p.globals.get d.ofs).toNat < p.strings.size →
    m.g (gbase + 4 * d.ofs) = p.globals.get d.ofs + BitVec.ofNat 32 sbase
  functions : ∀ d ∈ p.globalDefs, d.ty = .function → d.ofs < p.globals.size → ¬p.Patched d.ofs →
    ¬link (gbase + 4 * d.ofs) → p.globals.get d.ofs ≠ 0 →
    (p.globals.get d.ofs).toNat < p.numFunctions →
    m.g (gbase + 4 * d.ofs) = p.globals.get d.ofs ||| BitVec.ofNat 32 pr <<< 24

/-- Relocating a pointer again, for the other definitions of its word, does not move it. -/
def Program.PointersOnce (p : Program) (gbase : Nat) (link : Nat → Prop) : Prop :=
  ∀ d ∈ p.globalDefs, isPointerReloc p.globals d → ¬p.Patched d.ofs → ¬link (gbase + 4 * d.ofs) →
    2 ^ 31 ∣ ((p.naming d.ofs).length - 1) * gbase

/-- Relocating a global again, for the other definitions of its word, does not change it: the globals
base times their number wraps around, the field maps back to itself, the string is no longer one of
the file. -/
structure Program.Once (p : Program) (gbase sbase : Nat) (map : FieldMap) (link : Nat → Prop) :
    Prop where
  pointers : p.PointersOnce gbase link
  fields : ∀ d ∈ p.globalDefs, d.ty = .field → d.ofs < p.globals.size → ¬p.Patched d.ofs →
    ¬link (gbase + 4 * d.ofs) →
    (fieldImage map)^[(p.naming d.ofs).length - 1] (fieldImage map (p.globals.get d.ofs))
      = fieldImage map (p.globals.get d.ofs)
  strings : ∀ d ∈ p.globalDefs, d.ty = .string → d.ofs < p.globals.size → ¬p.Patched d.ofs →
    ¬link (gbase + 4 * d.ofs) → p.globals.get d.ofs ≠ 0 →
    (p.globals.get d.ofs).toNat < p.strings.size →
    (p.naming d.ofs).length = 1 ∨ p.strings.size ≤ (p.globals.get d.ofs).toNat + sbase

/-! ## Iterated rewrites -/

/-- A relocated pointer is the offset, without its sign bit, behind the globals. -/
lemma toNat_relocatePointer {gbase : Nat} (v : Word) (small : gbase < 2 ^ 32) :
    (relocatePointer gbase v).toNat = (v.toNat % 2 ^ 31 + gbase) % 2 ^ 32 := by
  have mask : (v &&& 0x7FFFFFFF).toNat = v.toNat % 2 ^ 31 := by
    rw [BitVec.toNat_and]
    exact Nat.and_two_pow_sub_one_eq_mod v.toNat 31
  rw [relocatePointer, BitVec.toNat_add, mask, BitVec.toNat_ofNat, Nat.mod_eq_of_lt small]

/-- A pointer relocated several times. -/
lemma toNat_relocatePointer_iterate {gbase : Nat} (v : Word) (small : gbase < 2 ^ 32) (n : Nat) :
    ((relocatePointer gbase)^[n + 1] v).toNat
      = ((v.toNat + n * gbase) % 2 ^ 31 + gbase) % 2 ^ 32 := by
  induction n with
  | zero =>
    rw [Function.iterate_one, toNat_relocatePointer v small, Nat.zero_mul, Nat.add_zero]
  | succ n ih =>
    rw [Function.iterate_succ_apply', toNat_relocatePointer _ small, ih, Nat.succ_mul]
    omega

/-- Relocating a pointer several times is relocating it once if the base wraps around. -/
lemma relocatePointer_iterate {gbase : Nat} (v : Word) (small : gbase < 2 ^ 32) (n : Nat) :
    (relocatePointer gbase)^[n + 1] v = relocatePointer gbase v ↔ 2 ^ 31 ∣ n * gbase := by
  rw [← BitVec.toNat_inj, toNat_relocatePointer_iterate v small, toNat_relocatePointer v small]
  constructor
  · intro same
    have low : (v.toNat + n * gbase) % 2 ^ 31 = v.toNat % 2 ^ 31 := by omega
    omega
  · intro wraps
    have low : (v.toNat + n * gbase) % 2 ^ 31 = v.toNat % 2 ^ 31 := by omega
    rw [low]

/-- The rewrite of a typed global of an added progs. -/
def rewriteGlobal (program : Program) (sbase pr : Nat) (map : FieldMap) (ty : EvType) (v : Word) :
    Word :=
  (relocateGlobal program sbase pr map ty v).getD v

section Typed

variable {p : Program} {sbase pr : Nat} {map : FieldMap}

/-- A field is mapped. -/
lemma rewriteGlobal_field : rewriteGlobal p sbase pr map .field = fieldImage map := rfl

/-- A global that is no string, function or field is kept. -/
lemma rewriteGlobal_of_other {ty : EvType} (string : ty ≠ .string) (function : ty ≠ .function)
    (field : ty ≠ .field) : rewriteGlobal p sbase pr map ty = id := by
  funext v
  cases ty <;> first | rfl | contradiction

/-- A string of the progs is moved behind its strings. -/
lemma rewriteGlobal_string {v : Word} (nonzero : v ≠ 0) (inside : v.toNat < p.strings.size) :
    rewriteGlobal p sbase pr map .string v = v + BitVec.ofNat 32 sbase := by
  simp only [rewriteGlobal, relocateGlobal]
  rw [if_pos ⟨nonzero, inside⟩, Option.getD_some]

/-- A string reference past the strings of the progs is kept. -/
lemma rewriteGlobal_string_of_past {v : Word} (past : p.strings.size ≤ v.toNat) :
    rewriteGlobal p sbase pr map .string v = v := by
  simp only [rewriteGlobal, relocateGlobal]
  rw [if_neg (by omega), Option.getD_none]

/-- A function of the progs gets its number. -/
lemma rewriteGlobal_function {v : Word} (nonzero : v ≠ 0) (inside : v.toNat < p.numFunctions) :
    rewriteGlobal p sbase pr map .function v = v ||| BitVec.ofNat 32 pr <<< 24 := by
  simp only [rewriteGlobal, relocateGlobal]
  rw [if_pos ⟨nonzero, inside⟩, Option.getD_some]

/-- A tagged function index does not change any more. -/
lemma rewriteGlobal_tagged (v : Word) :
    rewriteGlobal p sbase pr map .function (v ||| BitVec.ofNat 32 pr <<< 24)
      = v ||| BitVec.ofNat 32 pr <<< 24 := by
  simp only [rewriteGlobal, relocateGlobal]
  split
  next => rw [Option.getD_some, BitVec.or_assoc, BitVec.or_self]
  next => rw [Option.getD_none]

/-- Relocating only moves a string reference up. -/
lemma le_rewriteGlobal_string (room : sbase + p.strings.size ≤ 2 ^ 32) (v : Word) :
    v.toNat ≤ (rewriteGlobal p sbase pr map .string v).toNat := by
  by_cases inside : v ≠ 0 ∧ v.toNat < p.strings.size
  · rw [rewriteGlobal_string inside.1 inside.2, BitVec.toNat_add, BitVec.toNat_ofNat]
    omega
  · simp only [rewriteGlobal, relocateGlobal]
    rw [if_neg inside, Option.getD_none]

/-- A string relocated several times. -/
lemma rewriteGlobal_string_iterate (room : sbase + p.strings.size ≤ 2 ^ 32) (pos : 0 < sbase)
    {v : Word} (nonzero : v ≠ 0) (inside : v.toNat < p.strings.size) (n : Nat) :
    (rewriteGlobal p sbase pr map .string)^[n + 1] v = v + BitVec.ofNat 32 sbase ↔
      n = 0 ∨ p.strings.size ≤ v.toNat + sbase := by
  have moved : (v + BitVec.ofNat 32 sbase).toNat = v.toNat + sbase := by
    rw [BitVec.toNat_add, BitVec.toNat_ofNat]
    omega
  rw [Function.iterate_succ_apply, rewriteGlobal_string nonzero inside]
  constructor
  · intro same
    by_contra other
    obtain ⟨k, rfl⟩ := Nat.exists_eq_succ_of_ne_zero (fun zero => other (.inl zero))
    have again : v + BitVec.ofNat 32 sbase ≠ 0 := fun zero => by
      rw [zero] at moved
      simp at moved
      omega
    have up (k : Nat) (u : Word) :
        u.toNat ≤ ((rewriteGlobal p sbase pr map .string)^[k] u).toNat := by
      induction k generalizing u with
      | zero => exact Nat.le_refl _
      | succ k ih =>
        rw [Function.iterate_succ_apply]
        exact Nat.le_trans (le_rewriteGlobal_string room u) (ih _)
    rw [Function.iterate_succ_apply, rewriteGlobal_string again (by omega)] at same
    have above := up k (v + BitVec.ofNat 32 sbase + BitVec.ofNat 32 sbase)
    rw [same, BitVec.toNat_add (v + BitVec.ofNat 32 sbase), moved, BitVec.toNat_ofNat] at above
    omega
  · rintro (rfl | past)
    · rfl
    · exact Function.iterate_fixed (rewriteGlobal_string_of_past (by omega)) n

end Typed

/-! ## What loading makes of a word -/

/-- A word of the globals after the fixups: relocated once for every pointer that names it. -/
lemma g_fixGlobals {m : Memory} {p : Program} {gbase w : Nat} {thisprogs : Word}
    (fits : gbase + 4 * w + 4 ≤ m.s.size) (unpatched : ¬p.Patched w) :
    (fixGlobals m p gbase thisprogs).g (gbase + 4 * w)
      = (relocatePointer gbase)^[(p.pointerRelocs.filter (· = w)).length] (m.g (gbase + 4 * w)) := by
  have rewrites : Rewrites gbase (fun w : Nat => w) (fun _ => relocatePointer gbase)
      (fun m word => m.setG (gbase + 4 * word) (relocatePointer gbase (m.g (gbase + 4 * word)))) :=
    ⟨fun _ _ => rfl, fun _ _ fits => Memory.g_setG_self fits,
      fun _ _ _ other => Memory.g_setG_of_apart (by omega)⟩
  have apart (m : Memory) (o : Option Nat) (v : Word) (other : o ≠ some w) :
      (o.elim m fun word => m.setG (gbase + 4 * word) v).g (gbase + 4 * w) = m.g (gbase + 4 * w) := by
    cases o with
    | none => rfl
    | some u =>
      have differ : u ≠ w := fun same => other (congrArg some same)
      exact Memory.g_setG_of_apart (by omega)
  unfold fixGlobals
  dsimp only
  rw [apart _ _ _ fun e => unpatched (.inr e), apart _ _ _ fun e => unpatched (.inl e)]
  refine (rewrites.foldl p.pointerRelocs fits).trans ?_
  rw [List.foldl_const]

/-- A word of the globals of an added progs: rewritten once for every definition that names it. -/
lemma g_relocateGlobals {m : Memory} {p : Program} {gbase sbase pr w : Nat} {map : FieldMap}
    {ty : EvType} (fits : gbase + 4 * w + 4 ≤ m.s.size) (typed : ∀ d ∈ p.naming w, d.ty = ty) :
    (relocateGlobals m p gbase sbase pr map).g (gbase + 4 * w)
      = (rewriteGlobal p sbase pr map ty)^[(p.naming w).length] (m.g (gbase + 4 * w)) := by
  have rewritten : (relocateGlobals m p gbase sbase pr map).g (gbase + 4 * w)
      = (p.naming w).foldl (fun v d => rewriteGlobal p sbase pr map d.ty v) (m.g (gbase + 4 * w)) := by
    refine Rewrites.foldl ⟨fun m d => ?_, fun m d fits => ?_, fun m d w other => ?_⟩ p.globalDefs fits
    · dsimp only
      split <;> rfl
    · dsimp only [rewriteGlobal]
      split
      next v e => rw [Memory.g_setG_self fits, e, Option.getD_some]
      next e => rw [e, Option.getD_none]
    · dsimp only
      split
      next => exact Memory.g_setG_of_apart (by omega)
      next => rfl
  refine rewritten.trans ?_
  refine (List.foldl_ext _ (fun v _ => rewriteGlobal p sbase pr map ty v) _ fun v d mem => ?_).trans
    (List.foldl_const _ _ _)
  rw [typed d mem]

/-- Externs are linked in words of the globals of some progs, or behind them. -/
lemma mem_externWrites {core : Core} {w : Nat × Word} (mem : w ∈ externWrites core) :
    ∃ ps ∈ core.progs, ∃ k, w.1 = ps.gbase + 4 * k := by
  unfold externWrites at mem
  obtain ⟨⟨ps, pr⟩, indexed, mem⟩ := List.mem_flatMap.mp mem
  obtain ⟨name, -, mem⟩ := List.mem_filterMap.mp mem
  obtain ⟨d, -, mem⟩ := Option.bind_eq_some_iff.mp mem
  dsimp only at mem
  split at mem
  next => cases mem
  next =>
    obtain ⟨at', address, mem⟩ := Option.bind_eq_some_iff.mp mem
    split at mem
    next => cases mem
    next =>
      obtain ⟨_, -, mem⟩ := Option.bind_eq_some_iff.mp mem
      cases mem
      obtain ⟨off, scaled, sum⟩ := Option.bind_eq_some_iff.mp address
      obtain ⟨-, rfl⟩ := checkedMul_eq_some.mp scaled
      obtain ⟨-, rfl⟩ := checkedAdd_eq_some.mp sum
      exact ⟨ps, List.mem_of_getElem? (List.mem_zipIdx_iff_getElem?.mp indexed), d.ofs, by omega⟩

/-- A word that is no extern function stays as it is. -/
lemma g_linkExterns {core : Core} {at' : Nat} (aligned : ∀ ps ∈ core.progs, 4 ∣ ps.gbase)
    (word : 4 ∣ at') (unlinked : ¬core.ExternLink at') :
    core.linkExterns.mem.g at' = core.mem.g at' := by
  have apart : ∀ w ∈ externWrites core, w.1 + 4 ≤ at' ∨ at' + 4 ≤ w.1 := by
    rintro ⟨off, v⟩ mem
    have differ : off ≠ at' := fun same => unlinked ⟨v, same ▸ mem⟩
    obtain ⟨ps, loaded, k, off⟩ := mem_externWrites mem
    have base := aligned ps loaded
    dsimp only at off ⊢
    omega
  unfold Core.linkExterns
  dsimp only
  generalize externWrites core = writes at apart
  generalize core.mem = m
  induction writes generalizing m with
  | nil => rfl
  | cons w l ih =>
    rw [List.foldl_cons, ih (fun w mem => apart w (List.mem_cons_of_mem _ mem))]
    exact Memory.g_setG_of_apart (apart w List.mem_cons_self)

/-- In an agreeing program, the definitions of a relocatable pointer are all relocatable. -/
lemma length_pointerRelocs {l : Loaded} (agreeing : l.program.Agreeing) {d : Def}
    (mem : d ∈ l.program.globalDefs) :
    (l.program.pointerRelocs.filter (· = d.ofs)).length
      = if isPointerReloc l.program.globals d then (l.program.naming d.ofs).length else 0 := by
  obtain ⟨_, _, _, parsed⟩ := parsed l.parsed
  rw [parsed.pointerRelocs, List.filter_map, List.length_map, List.filter_filter, Program.naming]
  have same : ∀ d' ∈ l.program.globalDefs, d'.ofs = d.ofs →
      isPointerReloc l.program.globals d' = isPointerReloc l.program.globals d := by
    intro d' mem' ofs
    unfold isPointerReloc
    rw [agreeing d' mem' d mem ofs, ofs]
  split
  next reloc =>
    refine congrArg List.length (List.filter_congr fun d' mem' => ?_)
    by_cases ofs : d'.ofs = d.ofs
    · simp [ofs, same d' mem' ofs, reloc]
    · simp [ofs]
  next plain =>
    rw [List.length_eq_zero_iff, List.filter_eq_nil_iff]
    intro d' mem' both
    simp only [Function.comp_apply, Bool.and_eq_true, decide_eq_true_eq] at both
    exact plain ((same d' mem' both.1).symm.trans both.2)

/-! ## Relocated once -/

section Once

variable {l : Loaded} {m : Memory} {gbase sbase pr : Nat} {map : FieldMap} {link : Nat → Prop}

/-- A global with a definition is named. -/
lemma one_le_naming {p : Program} {d : Def} (mem : d ∈ p.globalDefs) :
    1 ≤ (p.naming d.ofs).length :=
  List.length_pos_of_mem (List.mem_filter.mpr ⟨mem, by simp⟩)

/-- What loading makes of the words of a progs, before externs are linked. -/
def Program.Rewritten (p : Program) (m : Memory) (gbase : Nat) (f : EvType → Word → Word)
    (link : Nat → Prop) : Prop :=
  ∀ d ∈ p.globalDefs, d.ofs < p.globals.size → ¬p.Patched d.ofs → ¬link (gbase + 4 * d.ofs) →
    m.g (gbase + 4 * d.ofs)
      = (relocatePointer gbase)^[(p.pointerRelocs.filter (· = d.ofs)).length]
        ((f d.ty)^[(p.naming d.ofs).length] (p.globals.get d.ofs))

/-- A relocatable pointer is one of the globals. -/
lemma lt_of_isPointerReloc {globals : Arr Word} {d : Def} (reloc : isPointerReloc globals d) :
    d.ty = .pointer ∧ d.ofs < globals.size := by
  unfold isPointerReloc at reloc
  obtain ⟨ty, high⟩ := Bool.and_eq_true_iff.mp reloc
  refine ⟨of_decide_eq_true ty, ?_⟩
  by_contra past
  rw [Arr.get?_eq_none.mpr (by omega)] at high
  cases high

/-- Pointers are relocated once if and only if relocating them again does not move them. -/
lemma pointersRelocated_iff {f : EvType → Word → Word} (agreeing : l.program.Agreeing)
    (small : gbase < 2 ^ 32) (pointer : f .pointer = id)
    (rewritten : l.program.Rewritten m gbase f link) :
    l.program.PointersRelocated m gbase link ↔ l.program.PointersOnce gbase link := by
  refine forall_congr' fun d => forall_congr' fun mem => forall_congr' fun reloc =>
    forall_congr' fun unpatched => forall_congr' fun unlinked => ?_
  obtain ⟨ty, inside⟩ := lt_of_isPointerReloc reloc
  obtain ⟨n, count⟩ := Nat.exists_eq_add_of_le' (one_le_naming mem)
  rw [rewritten d mem inside unpatched unlinked, ty, pointer, Function.iterate_id, id,
    length_pointerRelocs agreeing mem, if_pos reloc, count, Nat.add_sub_cancel]
  exact relocatePointer_iterate _ small n

/-- A word that is no relocatable pointer is rewritten by its type only. -/
lemma g_of_not_pointer {f : EvType → Word → Word} (agreeing : l.program.Agreeing)
    (rewritten : l.program.Rewritten m gbase f link) {d : Def} (mem : d ∈ l.program.globalDefs)
    (inside : d.ofs < l.program.globals.size) (unpatched : ¬l.program.Patched d.ofs)
    (unlinked : ¬link (gbase + 4 * d.ofs)) (other : d.ty ≠ .pointer) :
    m.g (gbase + 4 * d.ofs)
      = (f d.ty)^[(l.program.naming d.ofs).length] (l.program.globals.get d.ofs) := by
  have plain : ¬isPointerReloc l.program.globals d := fun reloc => other (lt_of_isPointerReloc reloc).1
  rw [rewritten d mem inside unpatched unlinked, length_pointerRelocs agreeing mem,
    if_neg plain, Function.iterate_zero, id]

/-- The globals of an added progs are relocated once if and only if relocating them again does not
change them. -/
lemma relocated_iff (agreeing : l.program.Agreeing) (small : gbase < 2 ^ 32)
    (room : sbase + l.program.strings.size ≤ 2 ^ 32) (pos : 0 < sbase)
    (rewritten : l.program.Rewritten m gbase (rewriteGlobal l.program sbase pr map) link) :
    l.program.Relocated m gbase sbase pr map link ↔ l.program.Once gbase sbase map link := by
  have pointers := pointersRelocated_iff agreeing small
    (rewriteGlobal_of_other nofun nofun nofun) rewritten
  constructor
  · intro r
    refine ⟨pointers.mp r.pointers, ?_, ?_⟩
    · intro d mem ty inside unpatched unlinked
      obtain ⟨n, count⟩ := Nat.exists_eq_add_of_le' (one_le_naming mem)
      have value := r.fields d mem ty inside unpatched unlinked
      rw [g_of_not_pointer agreeing rewritten mem inside unpatched unlinked (by rw [ty]; nofun), ty,
        count, rewriteGlobal_field, Function.iterate_succ_apply] at value
      rw [count, Nat.add_sub_cancel]
      exact value
    · intro d mem ty inside unpatched unlinked nonzero valid
      obtain ⟨n, count⟩ := Nat.exists_eq_add_of_le' (one_le_naming mem)
      have value := r.strings d mem ty inside unpatched unlinked nonzero valid
      rw [g_of_not_pointer agreeing rewritten mem inside unpatched unlinked (by rw [ty]; nofun), ty,
        count, rewriteGlobal_string_iterate room pos nonzero valid] at value
      rw [count]
      omega
  · intro once
    refine ⟨pointers.mpr once.pointers, ?_, ?_, ?_⟩
    · intro d mem ty inside unpatched unlinked
      obtain ⟨n, count⟩ := Nat.exists_eq_add_of_le' (one_le_naming mem)
      have value := once.fields d mem ty inside unpatched unlinked
      rw [count, Nat.add_sub_cancel] at value
      rw [g_of_not_pointer agreeing rewritten mem inside unpatched unlinked (by rw [ty]; nofun), ty,
        count, rewriteGlobal_field, Function.iterate_succ_apply]
      exact value
    · intro d mem ty inside unpatched unlinked nonzero valid
      obtain ⟨n, count⟩ := Nat.exists_eq_add_of_le' (one_le_naming mem)
      have value := once.strings d mem ty inside unpatched unlinked nonzero valid
      rw [g_of_not_pointer agreeing rewritten mem inside unpatched unlinked (by rw [ty]; nofun), ty,
        count, rewriteGlobal_string_iterate room pos nonzero valid]
      omega
    · intro d mem ty inside unpatched unlinked nonzero valid
      obtain ⟨n, count⟩ := Nat.exists_eq_add_of_le' (one_le_naming mem)
      rw [g_of_not_pointer agreeing rewritten mem inside unpatched unlinked (by rw [ty]; nofun), ty,
        count, Function.iterate_succ_apply, rewriteGlobal_function nonzero valid]
      exact Function.iterate_fixed (rewriteGlobal_tagged _) n

end Once

/-- The main progs after `build_core`. -/
lemma rewritten_buildCore {main : Loaded} {builtins : Builtins} {config : VmConfig} {core : Core}
    (e : buildCore main.program builtins config = .ok core) {ps : ProgsState}
    (loaded : core.progs[0]? = some ps) :
    main.program.Rewritten core.mem ps.gbase (fun _ => id) fun _ => False := by
  obtain ⟨sp, b⟩ := Core.built e
  have same : ps = Core.mainProgs main.program builtins sp.gbase core.shared := by
    rw [b.progs] at loaded
    exact (Option.some.inj loaded).symm
  have planned := b.planned
  have stack := planned.lsBase
  have finish := planned.sLen
  have count : main.program.numGlobals = main.program.globals.size :=
    Nat.min_eq_left main.sound.globals_le
  rintro d - inside unpatched -
  have size : (initialMemory main.program config sp).s.size = sp.sLen := rfl
  have fits : sp.gbase + 4 * d.ofs + 4 ≤ (initialMemory main.program config sp).s.size := by
    rw [size]
    omega
  have loaded : core.mem.g (sp.gbase + 4 * d.ofs) = (fixGlobals (initialMemory main.program config sp)
      main.program sp.gbase 0).g (sp.gbase + 4 * d.ofs) := by
    rw [Memory.g, b.words, Memory.g]
  rw [same]
  refine loaded.trans ((g_fixGlobals fits unpatched).trans ?_)
  rw [Memory.g_putGlobals (show (initialMemory main.program config sp).s
      = putGlobals (main.program.strings.resize sp.sLen 0) sp.gbase main.program.globals from rfl)
    (by rw [Arr.size_resize]; omega) inside, Function.iterate_id]
  rfl

/-- The globals of an added progs before they are relocated. -/
lemma g_appended (core : Core) {l : Loaded} (fieldBytes : Nat) {w : Nat}
    (inside : w < l.program.globals.size) :
    core.nextGlobals l.program + 4 * w + 4 ≤ (core.appended l.program fieldBytes).s.size ∧
      (core.appended l.program fieldBytes).g (core.nextGlobals l.program + 4 * w)
        = l.program.globals.get w := by
  have count : l.program.numGlobals = l.program.globals.size := Nat.min_eq_left l.sound.globals_le
  have size : (core.appended l.program fieldBytes).s.size = core.nextEnd l.program := rfl
  have finish : core.nextGlobals l.program + 4 * l.program.globals.size ≤ core.nextEnd l.program := by
    rw [← count]
    exact Nat.le_add_right _ _
  refine ⟨by omega, Memory.g_putGlobals rfl ?_ inside⟩
  rw [Arr.size_write, Arr.size_resize]
  exact finish

/-- The memory of an added progs before externs are linked. -/
lemma mem_joined {F : FloatOps} {core : Core} {program : Program} {builtins : Builtins}
    {map : FieldMap} {fields : FieldTable} {fieldBytes : Nat} :
    (core.joined F program builtins map fields fieldBytes).mem
      = fixGlobals (relocateGlobals (core.appended program fieldBytes) program
        (core.nextGlobals program) core.nextStrings core.progs.length map) program
        (core.nextGlobals program) (F.ofU32 (BitVec.ofNat 32 core.progs.length)) :=
  Core.mem_registerShared _ _

/-- An added progs, after `add_progs` linked the externs. -/
lemma rewritten_addProgs {F : FloatOps} {core : Core} {l : Loaded} {builtins : Builtins}
    {map : FieldMap} {fields : FieldTable} {fieldBytes : Nat} (agreeing : l.program.Agreeing)
    (aligned : ∀ ps ∈ (core.joined F l.program builtins map fields fieldBytes).progs, 4 ∣ ps.gbase) :
    l.program.Rewritten (core.joined F l.program builtins map fields fieldBytes).linkExterns.mem
      (core.nextGlobals l.program) (rewriteGlobal l.program core.nextStrings core.progs.length map)
      (core.joined F l.program builtins map fields fieldBytes).ExternLink := by
  intro d mem inside unpatched unlinked
  obtain ⟨fits, initial⟩ := g_appended core fieldBytes inside
  have word : 4 ∣ core.nextGlobals l.program + 4 * d.ofs := by
    unfold Core.nextGlobals
    omega
  have typed : ∀ d' ∈ l.program.naming d.ofs, d'.ty = d.ty := by
    intro d' mem'
    obtain ⟨mem', ofs⟩ := List.mem_filter.mp mem'
    exact agreeing d' mem' d mem (of_decide_eq_true ofs)
  rw [g_linkExterns aligned word unlinked, mem_joined, g_fixGlobals ?_ unpatched,
    g_relocateGlobals fits typed, initial]
  rw [Core.size_of_shape (Core.shape_relocateGlobals _ _ _ _ _ _)]
  exact fits

/-- Pointers of the main progs. -/
lemma relocated_buildCore {l : Loaded} (agreeing : l.program.Agreeing) {builtins : Builtins}
    {config : VmConfig} {core : Core} (e : buildCore l.program builtins config = .ok core)
    {ps : ProgsState} (loaded : core.progs[0]? = some ps) :
    l.program.PointersRelocated core.mem ps.gbase (fun _ => False) ↔
      l.program.PointersOnce ps.gbase fun _ => False := by
  have layout := (Core.layout_buildCore e).mem
  have inside := ((Core.blocks_buildCore e).progs ps (List.mem_of_getElem? loaded)).inside
  have s_le := layout.s_le
  have e_end := layout.e_end
  have h_end := layout.h_end
  exact pointersRelocated_iff agreeing (by omega) rfl (rewritten_buildCore e loaded)

/-- Globals of an added progs. -/
lemma relocated_addProgs {F : FloatOps} {l : Loaded} (agreeing : l.program.Agreeing) {core : Core}
    {builtins : Builtins} (layout : core.Layout) (blocks : core.Blocks) {pr : Nat} {core' : Core}
    (e : core.addProgs F l.program builtins true = (.ok pr, core')) {ps : ProgsState}
    (loaded : core'.progs[pr]? = some ps) {map : FieldMap} {fields : FieldTable} {fieldBytes : Nat}
    (mapped : mapFields core l.program = some (map, fields, fieldBytes)) :
    l.program.Relocated core'.mem ps.gbase ps.sbase pr map
        (core.joined F l.program builtins map fields fieldBytes).ExternLink ↔
      l.program.Once ps.gbase ps.sbase map
        (core.joined F l.program builtins map fields fieldBytes).ExternLink := by
  have next : (core.addProgs F l.program builtins true).2.Blocks := Core.blocks_addProgs blocks
  rcases Core.addProgs_cases F core l.program builtins true with
    ⟨-, _, refused⟩ | ⟨map', fields', fieldBytes', -, room, mapped', ⟨none, -⟩ | ⟨-, added⟩⟩
  · cases e.symm.trans refused
  · cases none
  · cases mapped.symm.trans mapped'
    cases e.symm.trans added
    rw [added] at next
    obtain ⟨names, progs⟩ := core.progs_joined F l.program builtins map fields fieldBytes
    have same : ps = (core.nextProgs l.program builtins fields).share names := by
      have at' : (core.joined F l.program builtins map fields fieldBytes).progs[core.progs.length]?
          = some ps := loaded
      rw [progs, List.map_append, List.getElem?_append_right (by simp)] at at'
      simpa using at'.symm
    have start : ps.sbase = core.nextStrings := by
      rw [same]
      exact (ProgsState.based_new l.program (bind l.program builtins)
        (stateHandles l.program (core.nextGlobals l.program) fields)
        (by unfold Core.nextStrings alignUp; omega) rfl).2
    have base : ps.gbase = core.nextGlobals l.program := by
      rw [same]
      rfl
    have pos : 0 < core.mem.s.size := by
      obtain ⟨main, rest, -, h⟩ := blocks.headed
      have finish := h.lsEnd
      unfold Memory.lsEnd at finish
      omega
    have behind : core.mem.s.size ≤ core.nextStrings := Core.le_alignUp _ (by omega)
    have e_end := layout.mem.e_end
    have h_end := layout.mem.h_end
    have inside : core.nextStrings + l.program.strings.size ≤ core.nextGlobals l.program := by
      unfold Core.nextGlobals
      omega
    unfold Core.nextEnd at room
    rw [start, base]
    exact relocated_iff agreeing (by omega) (by omega) (by omega)
      (rewritten_addProgs agreeing fun ps mem => (next.based ps mem).aligned)

/-- Whether a program is loaded as the main progs or added later: if the definitions of a word agree on
its type, every global is relocated once if and only if relocating it again, for the other definitions
of its word, does not change it. -/
theorem relocation_once (F : FloatOps) (l : Loaded) (agreeing : l.program.Agreeing) :
    (∀ (builtins : Builtins) (config : VmConfig) (core : Core) (ps : ProgsState),
      buildCore l.program builtins config = .ok core → core.progs[0]? = some ps →
      (l.program.PointersRelocated core.mem ps.gbase (fun _ => False) ↔
        l.program.PointersOnce ps.gbase fun _ => False)) ∧
    ∀ (s : Sys) (pr : Nat) (core : Core) (ps : ProgsState) (map : FieldMap) (fields : FieldTable)
      (fieldBytes : Nat), s.Reachable F →
      s.vm.core.addProgs F l.program s.vm.builtins true = (.ok pr, core) →
      core.progs[pr]? = some ps → mapFields s.vm.core l.program = some (map, fields, fieldBytes) →
      let link := (s.vm.core.joined F l.program s.vm.builtins map fields fieldBytes).ExternLink
      (l.program.Relocated core.mem ps.gbase ps.sbase pr map link ↔
        l.program.Once ps.gbase ps.sbase map link) :=
  ⟨fun _ _ _ _ e loaded => relocated_buildCore agreeing e loaded,
    fun _ _ _ _ _ _ _ r e loaded mapped =>
      relocated_addProgs agreeing r.base.layout r.blocks e loaded mapped⟩

instance (p : Program) : Decidable p.Agreeing :=
  inferInstanceAs (Decidable (∀ d ∈ p.globalDefs, ∀ d' ∈ p.globalDefs, d.ofs = d'.ofs → d.ty = d'.ty))

instance (p : Program) (w : Nat) : Decidable (p.Patched w) :=
  inferInstanceAs (Decidable (_ ∨ _))

/-- A program with a pointer to its second global, under two names. -/
def Asm.aliased : Asm where
  statements := [⟨0, 0, 0, 0, none⟩]
  globalDefs := [⟨7, 1, 1⟩, ⟨7, 1, 3⟩]
  globals := [0, 0x80000004]
  strings := [0, 112, 0, 113, 0]

/-- At a pointer global with two definitions. -/
theorem relocation_once_aliased : ∃ vm ps, Asm.aliased.boot .none .menu = some vm ∧
    vm.core.progs[0]? = some ps ∧
    (vm.main.program.PointersRelocated vm.core.mem ps.gbase (fun _ => False) ↔
      vm.main.program.PointersOnce ps.gbase fun _ => False) := by
  have agreeing : (Asm.aliased.boot .none .menu).any (fun vm =>
      decide vm.main.program.Agreeing && (vm.core.progs[0]?).isSome) = true := by decide +kernel
  obtain ⟨vm, e, found⟩ := (Option.any_eq_true _ _).mp agreeing
  rw [Bool.and_eq_true, decide_eq_true_eq] at found
  obtain ⟨ps, loaded⟩ := Option.isSome_iff_exists.mp found.2
  exact ⟨vm, ps, e, loaded,
    (relocation_once .onZero vm.main found.1).1 _ _ _ _ (built_of_boot e) loaded⟩

/-- The main progs relocates the pointer twice. -/
theorem relocation_twice : ¬ ∀ (l : Loaded), l.program.Agreeing → ∀ (builtins : Builtins)
    (config : VmConfig) (core : Core) (ps : ProgsState),
    buildCore l.program builtins config = .ok core → core.progs[0]? = some ps →
    l.program.PointersRelocated core.mem ps.gbase fun _ => False := by
  intro claim
  have moved : (Asm.aliased.boot .none .menu).any (fun vm =>
      decide vm.main.program.Agreeing && (vm.core.progs[0]?).any fun ps =>
        vm.main.program.globalDefs.any fun d => isPointerReloc vm.main.program.globals d &&
          decide (¬vm.main.program.Patched d.ofs ∧ vm.core.mem.g (ps.gbase + 4 * d.ofs)
            ≠ relocatePointer ps.gbase (vm.main.program.globals.get d.ofs))) = true := by
    decide +kernel
  obtain ⟨vm, e, found⟩ := (Option.any_eq_true _ _).mp moved
  rw [Bool.and_eq_true, decide_eq_true_eq] at found
  obtain ⟨agreeing, found⟩ := found
  obtain ⟨ps, loaded, found⟩ := (Option.any_eq_true _ _).mp found
  obtain ⟨d, mem, found⟩ := List.any_eq_true.mp found
  obtain ⟨reloc, wrong⟩ := Bool.and_eq_true_iff.mp found
  obtain ⟨unpatched, wrong⟩ := of_decide_eq_true wrong
  exact wrong (claim vm.main agreeing _ _ _ _ (built_of_boot e) loaded d mem reloc unpatched id)

end Qcvm

import Qcvm.Interp.Micro
import Qcvm.Vm.Layout

/-!
# The fast paths agree with the general memory code

Each inline fast path of the interpreter re-derives the range, protection and region checks of the
general code by arithmetic of its own. Under the region layout they come to the same: what a fast
path does, the general function does, without a warning or a fault.
-/

namespace Qcvm

open Lib

/-! ## Words and bytes -/

@[simp] lemma length_wordsBytes (vs : List Word) : (wordsBytes vs).length = 4 * vs.length := by
  induction vs with
  | nil => rfl
  | cons v vs ih =>
    simp only [wordsBytes, List.flatMap_cons, List.length_append, length_leBytes,
      List.length_cons] at ih ⊢
    omega

/-- Storing words one by one is writing their bytes as a block. -/
lemma foldl_putU32 (data : Arr Byte) (off k : Nat) (vs : List Word)
    (fits : off + 4 * (k + vs.length) ≤ data.size) :
    (vs.zipIdx k).foldl (fun d v => putU32 d (off + 4 * v.2) v.1) data
      = data.write (off + 4 * k) (wordsBytes vs) := by
  induction vs generalizing data k with
  | nil =>
    have none : (wordsBytes []).length = 0 := rfl
    refine Arr.ext (b := data.write (off + 4 * k) (wordsBytes [])) rfl fun i _ => ?_
    exact (Arr.get_write_of_outside (by omega)).symm
  | cons v vs ih =>
    have more : off + 4 * (k + 1 + vs.length) ≤ data.size := by
      simp only [List.length_cons] at fits
      omega
    have split : wordsBytes (v :: vs) = leBytes v ++ wordsBytes vs := by simp [wordsBytes]
    have room : off + 4 * k + (leBytes v).length + (wordsBytes vs).length ≤ data.size := by
      simp only [length_leBytes, length_wordsBytes]
      omega
    rw [List.zipIdx_cons, List.foldl_cons, ih _ _ (by simpa using more), split, Arr.write_append room]
    rfl

namespace Memory

variable {m : Memory}

/-- Words written to fields change region E alone. -/
lemma foldl_setEntWord (m : Memory) (off : Nat) (vs : List (Word × Nat)) :
    vs.foldl (fun m v => m.setEntWord (off + 4 * v.2) v.1) m
      = { m with e := vs.foldl (fun d v => putU32 d (off + 4 * v.2) v.1) m.e } := by
  induction vs generalizing m with
  | nil => rfl
  | cons v vs ih => exact ih _

/-! ## Entity blocks -/

/-- The block of an entity lies in region E. -/
lemma Regions.block_le (l : m.Regions) {e : Nat} (lt : e < m.slots.length) :
    e * m.stride + m.stride ≤ m.e.size := by
  rw [l.e_size, ← Nat.succ_mul]
  exact Nat.mul_le_mul_right _ lt

/-- A range in region E lies in the block of an entity. -/
lemma Regions.lt_slots (l : m.Regions) {e n : Nat} (pos : 0 < n) (le : e * m.stride + n ≤ m.e.size) :
    e < m.slots.length := by
  rw [l.e_size] at le
  exact Nat.lt_of_mul_lt_mul_right (a := m.stride) (by omega)

/-- Whether an entity is protected is in its slot. -/
lemma guarded_eq {e : Nat} {slot : EntSlot} (h : m.slots[e]? = some slot) :
    m.guarded e = slot.guarded := by
  rw [guarded, h]
  rfl

/-- `ent_field` reads exactly what `field_offset` locates. -/
theorem entField_eq (l : m.Regions) {words : Nat} (pos : 0 < words) (e f : Word) :
    m.entField (4 * words) e f
      = (m.fieldOffset e.toNat f.toNat words).map fun off => m.e.slice off (4 * words) := by
  have fields := l.fields_le
  unfold entField fieldOffset
  rw [l.numEdicts]
  dsimp only
  by_cases wide : 4 * f.toNat + 4 * words > m.fieldBytes
  · have wide' : 4 * (f.toNat + words) > m.fieldBytes := by omega
    rw [if_pos wide, if_pos wide']
    split <;> rfl
  · have narrow : ¬4 * (f.toNat + words) > m.fieldBytes := by omega
    rw [if_neg wide, if_neg narrow]
    rcases Nat.lt_or_ge e.toNat m.slots.length with lt | ge
    · have block := l.block_le lt
      have inside : e.toNat * m.stride + 4 * f.toNat + 4 * words ≤ m.e.size := by omega
      have valid : ¬e.toNat ≥ m.slots.length := by omega
      rw [if_pos inside, if_neg valid]
      rfl
    · have past : ¬e.toNat * m.stride + 4 * f.toNat + 4 * words ≤ m.e.size := by
        intro le
        have lt := l.lt_slots (e := e.toNat) (n := 4 * f.toNat + 4 * words) (by omega) (by omega)
        omega
      rw [if_neg past, if_pos ge]
      rfl

/-- The words `field_offset` locates lie in region E. -/
lemma fieldOffset_fits (l : m.Regions) {e word words off k : Nat}
    (h : m.fieldOffset e word words = some off) (lt : k < words) : off + 4 * k + 4 ≤ m.e.size := by
  have fields := l.fields_le
  unfold fieldOffset at h
  rw [l.numEdicts] at h
  split at h
  next => cases h
  next valid =>
    split at h
    next => cases h
    next =>
      cases h
      have block := l.block_le (Nat.lt_of_not_le valid)
      omega

/-- An entity target is what `locate` finds. -/
lemma locate_of_entTarget (l : m.Regions) {p : Word} {n off : Nat} {guarded : Bool} (pos : 0 < n)
    (h : m.entTarget p n = some (off, guarded)) :
    m.locate p n = some (.e off (off / m.stride)) ∧ m.guarded (off / m.stride) = guarded ∧
      off + n ≤ m.e.size ∧ p ≠ 0 := by
  unfold entTarget at h
  split at h
  next => cases h
  next base =>
    dsimp only at h
    split at h
    next => cases h
    next slot found =>
      split at h
      next within =>
        cases h
        have lt : (p.toNat - m.eBase) / m.stride < m.slots.length :=
          (List.getElem?_eq_some_iff.mp found).1
        have block := l.block_le lt
        have division := Nat.div_add_mod (p.toNat - m.eBase) m.stride
        rw [Nat.mul_comm] at division
        have s_le := l.s_le
        have fields := l.fields_le
        refine ⟨?_, guarded_eq found, by omega, ?_⟩
        · rw [locate, if_neg (by omega), locateEntity, if_neg base]
          dsimp only
          rw [l.numEdicts, if_pos ⟨lt, within⟩]
          rfl
        · rintro rfl
          exact base (Nat.lt_of_lt_of_eq l.base_pos rfl)
      next => cases h

/-- A range in region S is found there. -/
lemma locate_s {p : Word} {n : Nat} (h : p.toNat + n ≤ m.s.size) : m.locate p n = some (.s p.toNat) :=
  if_pos h

/-- A range that is found and fits is read. -/
lemma read_eq_some {p : Word} {n : Nat} {loc : Loc}
    (found : m.locate p n = some loc) (fits : (m.region loc).2 + n ≤ (m.region loc).1.size) :
    m.read p n = some ((m.region loc).1.slice (m.region loc).2 n) := by
  simp only [read, found, Option.bind_eq_bind, Option.bind_some]
  exact if_pos fits

/-- A range in region S may be written, unless it is at the null address. -/
lemma checkWrite_s {p : Word} {n : Nat} (h : p.toNat + n ≤ m.s.size) (ne : p ≠ 0) :
    m.checkWrite p n = .ok (.s p.toNat) := checkWrite_eq_ok.mpr ⟨ne, locate_s h, nofun⟩

/-- A range of an entity that is not protected may be written. -/
lemma checkWrite_e {p : Word} {n off e : Nat} (found : m.locate p n = some (.e off e)) (ne : p ≠ 0)
    (free : m.guarded e = false) : m.checkWrite p n = .ok (.e off e) := by
  refine checkWrite_eq_ok.mpr ⟨ne, found, ?_⟩
  rintro _ _ ⟨⟩
  exact free

end Memory

namespace View

variable {V : View} {s : Arr Byte}

/-- A view that covers a region ends within it. -/
lemma limit_le (c : V.covers s) : V.limit s ≤ s.size := by
  cases V with
  | whole => exact Nat.le_refl _
  | window => exact of_decide_eq_true c

/-- The view finds an operand offset where it is. -/
def Reaches (V : View) (o : Nat) : Prop :=
  match V with
  | .whole => True
  | .window => o < windowSpan

/-- A view finds the offsets it reaches where they are. -/
lemma mask_eq {o : Nat} (r : V.Reaches o) : V.mask o = o := by
  cases V with
  | whole => rfl
  | window => exact Nat.mod_eq_of_lt r

/-- A view that covers a region checks the offsets it reaches as the region does. -/
lemma fits_iff (c : V.covers s) {o : Nat} (r : V.Reaches o) : o + 4 ≤ V.limit s ↔ o + 4 ≤ s.size := by
  cases V with
  | whole => exact Iff.rfl
  | window =>
    have span : o < windowSpan := r
    have size : windowBytes ≤ s.size := of_decide_eq_true c
    unfold windowSpan at span
    simp only [limit, windowBytes] at size ⊢
    omega

/-- An operand read through the view is a read of region S. -/
lemma g_eq (c : V.covers s) {o : Nat} (r : V.Reaches o) : V.g s o = (u32At s o).getD 0 := by
  rw [g, mask_eq r, u32At]
  by_cases fits : o + 4 ≤ s.size
  · rw [if_pos ((fits_iff c r).mpr fits), if_pos fits]
    rfl
  · rw [if_neg (fun h => fits ((fits_iff c r).mp h)), if_neg fits]
    rfl

/-- An operand written through the view is a write of region S. -/
lemma set_eq (c : V.covers s) {o : Nat} (r : V.Reaches o) (v : Word) : V.set s o v = putU32 s o v := by
  rw [set, mask_eq r]
  by_cases fits : o + 4 ≤ s.size
  · rw [if_pos ((fits_iff c r).mpr fits)]
  · rw [if_neg (fun h => fits ((fits_iff c r).mp h))]
    exact (Arr.write_of_out_of_range (by rw [length_leBytes]; omega)).symm

end View

/-! ## Each fast path and the function it shortcuts -/

namespace Core

variable {core : Core} {V : View}

/-- A field store the fast path takes. -/
theorem storeField_of_view (l : core.mem.Regions) {e f : Word} {vs : List Word} (some : vs ≠ [])
    {m : Memory} (h : core.mem.storeFieldView e f vs = .some m) :
    core.storeField e f vs = { core with mem := m } := by
  have pos : 0 < vs.length := List.length_pos_iff.mpr some
  unfold Memory.storeFieldView at h
  simp only [length_wordsBytes] at h
  split at h
  next => cases h
  next valid =>
    split at h
    next fits =>
      cases h
      rw [not_or] at valid
      obtain ⟨narrow, free⟩ := valid
      cases found : core.mem.slots[e.toNat]? with
      | none => simp [found] at free
      | some slot =>
        have writable : core.mem.guarded e.toNat = false := by
          rw [Memory.guarded_eq found]
          simpa [found] using free
        have lt : ¬e.toNat ≥ core.mem.numEdicts := by
          rw [l.numEdicts]
          exact Nat.not_le_of_lt (List.getElem?_eq_some_iff.mp found).1
        have offset : core.mem.fieldOffset e.toNat f.toNat vs.length
            = .some (e.toNat * core.mem.stride + 4 * f.toNat) := by
          rw [Memory.fieldOffset, if_neg lt, if_neg (by omega)]
        have writes := foldl_putU32 core.mem.e (e.toNat * core.mem.stride + 4 * f.toNat) 0 vs
          (by omega)
        simp only [storeField, if_neg lt, offset, writable, Memory.foldl_setEntWord, writes]
        rfl
    next => cases h

/-- A pointer read the fast path takes. -/
theorem ptrRead_of_view (l : core.mem.Regions) (c : V.covers core.mem.s) {n : Nat} (pos : 0 < n)
    {base offset : Word} {bytes : List Byte}
    (h : core.mem.ptrReadView V (base + offset) n = some bytes) :
    core.ptrRead n base offset = .ok bytes := by
  have read : core.mem.read (base + offset) n = some bytes := by
    unfold Memory.ptrReadView View.bytes at h
    split at h
    next bytes' taken =>
      split at taken
      next fits =>
        cases taken
        cases h
        have inside := Nat.le_trans fits (View.limit_le c)
        exact Memory.read_eq_some (Memory.locate_s inside) inside
      next => cases taken
    next =>
      split at h
      next off guarded target =>
        split at h
        next fits =>
          cases h
          obtain ⟨found, -, -, -⟩ := Memory.locate_of_entTarget l pos target
          exact Memory.read_eq_some found fits
        next => cases h
      next => cases h
  rw [ptrRead, read]

/-- A pointer write the fast path takes. -/
theorem ptrWrite_of_view (l : core.mem.Regions) (c : V.covers core.mem.s) {base offset : Word}
    {bytes : List Byte} (some : bytes ≠ []) {m : Memory}
    (h : core.mem.ptrWriteView V (base + offset) bytes = .some m) :
    core.ptrWrite base offset bytes = (.ok (), { core with mem := m }) := by
  have pos : 0 < bytes.length := List.length_pos_iff.mpr some
  have write : core.mem.write (base + offset) bytes = .ok m := by
    rw [Memory.write_eq_ok]
    unfold Memory.ptrWriteView at h
    split at h
    next fits =>
      split at h
      next => cases h
      next ne =>
        cases h
        have inside := Nat.le_trans fits (View.limit_le c)
        exact ⟨_, Memory.checkWrite_s inside ne, inside, rfl⟩
    next =>
      split at h
      next off target =>
        split at h
        next fits =>
          cases h
          obtain ⟨found, free, -, ne⟩ := Memory.locate_of_entTarget l pos target
          exact ⟨_, Memory.checkWrite_e found ne free, fits, rfl⟩
        next => cases h
      next => cases h
  simp only [ptrWrite, write]

/-- A compound pointer store whose word lies in region S. -/
lemma compoundPointerStore_s {F : FloatOps} {op : Compound} {oa ob oc : Nat} {p v : Word}
    (hp : core.mem.g ob = p) (ne : p ≠ 0) (fits : p.toNat + 4 ≤ core.mem.s.size)
    (hv : op.apply F (wordAt core.mem.s p.toNat) (core.mem.g oa) = v) :
    core.compoundPointerStore F (.compound op) oa ob oc = (.ok (),
      { core with mem := { core.mem with s := putU32 core.mem.s p.toNat v }.setG oc v }) := by
  have checked := Memory.checkWrite_s fits ne
  have peek : core.mem.peek p = wordAt core.mem.s p.toNat := by
    rw [Memory.peek, Memory.readU32, Memory.read_eq_some (Memory.locate_s fits) fits]
    rfl
  have write : core.mem.writeU32 p v = .ok { core.mem with s := putU32 core.mem.s p.toNat v } :=
    Memory.write_eq_ok.mpr ⟨_, checked, fits, rfl⟩
  simp only [compoundPointerStore, PointerStore.len, hp, checked, Memory.pointerStore,
    Memory.pokeSet, Memory.poke, peek, hv, write]

/-- A compound pointer store whose word lies in an entity. -/
lemma compoundPointerStore_e {F : FloatOps} {op : Compound} {oa ob oc off e : Nat} {p v : Word}
    (hp : core.mem.g ob = p) (ne : p ≠ 0) (found : core.mem.locate p 4 = some (.e off e))
    (free : core.mem.guarded e = false) (fits : off + 4 ≤ core.mem.e.size)
    (hv : op.apply F (wordAt core.mem.e off) (core.mem.g oa) = v) :
    core.compoundPointerStore F (.compound op) oa ob oc = (.ok (),
      { core with mem := { core.mem with e := putU32 core.mem.e off v }.setG oc v }) := by
  have checked := Memory.checkWrite_e found ne free
  have peek : core.mem.peek p = wordAt core.mem.e off := by
    rw [Memory.peek, Memory.readU32, Memory.read_eq_some found fits]
    rfl
  have write : core.mem.writeU32 p v = .ok { core.mem with e := putU32 core.mem.e off v } :=
    Memory.write_eq_ok.mpr ⟨_, checked, fits, rfl⟩
  simp only [compoundPointerStore, PointerStore.len, hp, checked, Memory.pointerStore,
    Memory.pokeSet, Memory.poke, peek, hv, write]

/-- A compound pointer store the fast path takes; its result also goes to operand `oc`. -/
theorem compoundPointerStore_of_view (l : core.mem.Regions) (c : V.covers core.mem.s)
    {F : FloatOps} {op : Compound} {oa ob oc : Nat} (r : V.Reaches oc) {v : Word} {m : Memory}
    (h : core.mem.compoundStoreView F V op (core.mem.g ob) (core.mem.g oa) = some (v, m)) :
    core.compoundPointerStore F (.compound op) oa ob oc
      = (.ok (), { core with mem := { m with s := V.set m.s oc v } }) := by
  unfold Memory.compoundStoreView at h
  split at h
  next fits =>
    split at h
    next => cases h
    next ne =>
      cases h
      have covers : V.covers (putU32 core.mem.s (core.mem.g ob).toNat
          (op.apply F (wordAt core.mem.s (core.mem.g ob).toNat) (core.mem.g oa))) := c
      rw [compoundPointerStore_s rfl ne (Nat.le_trans fits (View.limit_le c)) rfl]
      dsimp only
      rw [View.set_eq covers r]
      rfl
  next =>
    split at h
    next off target =>
      split at h
      next fits =>
        cases h
        obtain ⟨found, free, -, ne⟩ := Memory.locate_of_entTarget l (by omega) target
        rw [compoundPointerStore_e rfl ne found free fits rfl]
        dsimp only
        rw [View.set_eq c r]
        rfl
      next => cases h
    next => cases h

end Core

/-- The fast path of `ADDRESS` takes exactly the writable entities. -/
lemma Memory.any_unguarded {m : Memory} (l : m.Regions) (e : Word) :
    (m.slots[e.toNat]?).any (!·.guarded) = true ↔
      ¬e.toNat ≥ m.numEdicts ∧ m.guarded e.toNat = false := by
  rw [l.numEdicts]
  cases found : m.slots[e.toNat]? with
  | none =>
    have past := List.getElem?_eq_none_iff.mp found
    simp [past]
  | some slot =>
    have lt := (List.getElem?_eq_some_iff.mp found).1
    simp [Memory.guarded_eq found, Nat.not_le_of_lt lt]

/-- A word of a block cut out of a region. -/
lemma wordOf_slice {data : Arr Byte} {off n k : Nat} (h : k < n) :
    wordOf (data.slice off (4 * n)) k = wordAt data (off + 4 * k) := by
  have byte (i : Nat) (hi : i < 4) :
      (data.slice off (4 * n)).getD (4 * k + i) 0 = data.get (off + 4 * k + i) := by
    rw [Nat.add_assoc]
    exact data.getD_slice (by omega)
  simp only [wordOf, wordAt, leWord, byte 0 (by omega), byte 1 (by omega), byte 2 (by omega),
    byte 3 (by omega)]

/-- An inline fast path that takes an operation does what the general function does, which neither
warns nor fails there; one that declines leaves the operation to the general function, on the core
as it was but for the stored `pc`. -/
structure FastPathsAgree (F : FloatOps) (V : View) (core : Core) : Prop where
  /-- `ent_field` and `field_offset`. -/
  load : ∀ {words : Nat} {e f : Word} {field : List Byte}, 0 < words →
    core.mem.entField (4 * words) e f = some field →
    ∃ off, core.mem.fieldOffset e.toNat f.toNat words = some off ∧
      ∀ k < words, wordOf field k = core.mem.entWord (off + 4 * k)
  loadDeclined : ∀ {words : Nat} {e f : Word}, 0 < words →
    core.mem.entField (4 * words) e f = none → core.mem.fieldOffset e.toNat f.toNat words = none
  /-- `store_field_view` and `store_field`. -/
  store : ∀ {e f : Word} {vs : List Word} {m : Memory}, vs ≠ [] →
    core.mem.storeFieldView e f vs = some m → core.storeField e f vs = { core with mem := m }
  storeDeclined : ∀ {site : Site} {words : Nat}, site.view = V →
    core.mem.storeFieldView (V.g core.mem.s site.st.a) (V.g core.mem.s site.st.b)
      (V.getWords core.mem.s site.st.c words) = none →
    site.storeField words core = (core.markPc site.pc).storeField (core.mem.g site.st.a)
      (core.mem.g site.st.b) ((List.range words).map fun k => core.mem.g (site.st.c + 4 * k))
  /-- `ADDRESS` and its general case. -/
  address : ∀ {e f : Word}, (core.mem.slots[e.toNat]?).any (!·.guarded) = true →
    ¬e.toNat ≥ core.mem.numEdicts ∧ core.mem.guarded e.toNat = false ∧
      BitVec.ofNat 32 core.mem.eBase + BitVec.ofNat 32 (e.toNat * core.mem.stride) + f * 4
        = core.mem.fieldAddress e f
  /-- `ptr_read_view` and `ptr_read`. -/
  read : ∀ {n : Nat} {base offset : Word} {bytes : List Byte}, 0 < n →
    core.mem.ptrReadView V (base + offset) n = some bytes → core.ptrRead n base offset = .ok bytes
  readDeclined : ∀ {site : Site} {words : Nat} {base offset : Word}, site.view = V →
    core.mem.ptrReadView V (base + offset) (4 * words) = none →
    site.loadThrough words base offset core =
      match (core.markPc site.pc).ptrRead (4 * words) base offset with
      | .ok bytes => (.ok (), { core.markPc site.pc with
          mem := core.mem.setGs site.st.c (blockWords bytes) })
      | .error kind => (.error kind, core.markPc site.pc)
  /-- `ptr_write_view` and `ptr_write`. -/
  write : ∀ {base offset : Word} {bytes : List Byte} {m : Memory}, bytes ≠ [] →
    core.mem.ptrWriteView V (base + offset) bytes = some m →
    core.ptrWrite base offset bytes = (.ok (), { core with mem := m })
  writeDeclined : ∀ {site : Site} {base offset : Word} {bytes : List Byte}, site.view = V →
    core.mem.ptrWriteView V (base + offset) bytes = none →
    site.storeThrough base offset bytes core = (core.markPc site.pc).ptrWrite base offset bytes
  /-- `compound_store_view` and `compound_pointer_store`. -/
  compound : ∀ {op : Compound} {oa ob oc : Nat} {v : Word} {m : Memory}, V.Reaches oc →
    core.mem.compoundStoreView F V op (core.mem.g ob) (core.mem.g oa) = some (v, m) →
    core.compoundPointerStore F (.compound op) oa ob oc
      = (.ok (), { core with mem := { m with s := V.set m.s oc v } })
  compoundDeclined : ∀ {site : Site} {op : Compound}, site.view = V →
    core.mem.compoundStoreView F V op (V.g core.mem.s site.st.b) (V.g core.mem.s site.st.a) = none →
    site.compound F op core = (core.markPc site.pc).compoundPointerStore F (.compound op) site.st.a
      site.st.b site.st.c

/-- The fast paths agree with the general memory code. -/
theorem fastPathsAgree {F : FloatOps} {V : View} {core : Core} (l : core.mem.Regions)
    (c : V.covers core.mem.s) : FastPathsAgree F V core where
  load pos taken := by
    rw [Memory.entField_eq l pos] at taken
    obtain ⟨off, found, rfl⟩ := Option.map_eq_some_iff.mp taken
    refine ⟨off, found, fun k lt => ?_⟩
    rw [wordOf_slice lt, Memory.entWord, u32At, if_pos (Memory.fieldOffset_fits l found lt)]
    rfl
  loadDeclined pos declined := by
    rw [Memory.entField_eq l pos] at declined
    exact Option.map_eq_none_iff.mp declined
  store some taken := Core.storeField_of_view l some taken
  storeDeclined := by
    rintro site words rfl declined
    simp only [Site.storeField, declined]
    rfl
  address taken := by
    obtain ⟨valid, free⟩ := (Memory.any_unguarded l _).mp taken
    exact ⟨valid, free, rfl⟩
  read pos taken := Core.ptrRead_of_view l c pos taken
  readDeclined := by
    rintro site words base offset rfl declined
    simp only [Site.loadThrough, declined]
    rfl
  write some taken := Core.ptrWrite_of_view l c some taken
  writeDeclined := by
    rintro site base offset bytes rfl declined
    simp only [Site.storeThrough, declined]
  compound reach taken := Core.compoundPointerStore_of_view l c reach taken
  compoundDeclined := by
    rintro site op rfl declined
    simp only [Site.compound, declined]

/-- A core with 16 bytes of region S, the world in a block of 16 bytes behind them, and no progs. -/
def Core.bare : Core where
  mem :=
    { s := .tabulate 16 fun _ => 0
      e := .tabulate 16 fun _ => 0
      eBase := 16
      strideShift := 4
      fieldBytes := 12
      maxEdicts := 1
      slots := [⟨true, false, 0, 1⟩]
      heap := .new 0
      hBase := 32
      lsBase := 16
      lsWords := 0 }
  strings := .new 1 1
  progs := []
  fields := ⟨[], 3⟩
  frames := []
  x := .idle
  argc := 0
  builtin := .null
  nesting := 0
  rng := ⟨0⟩
  config := .menu
  warnings := []
  warningsThisCall := 0
  suppressed := 0
  raised := []
  trace := false
  traced := false
  removeClears := []
  spawnDefaults := []
  abortRet := none
  shared := []
  entryDepth := 0
  threads := []

/-- The regions of the bare core are in order. -/
lemma Core.regions_bare : Core.bare.mem.Regions where
  s_le := Nat.le_refl 16
  e_size := rfl
  fields_le := by decide
  slots_le := by decide
  base_pos := by decide

/-- The fast paths agree on a core with one entity. -/
theorem fastPathsAgree_bare : FastPathsAgree .onZero .whole Core.bare :=
  fastPathsAgree Core.regions_bare rfl

end Qcvm

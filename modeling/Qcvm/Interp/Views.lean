import Qcvm.Interp.Alike
import Qcvm.Interp.FastPath

/-!
# Views agree

Every operation that reaches region S through a view has a plain meaning: the words in all of region
S, and the general memory code in place of the fast paths. A view in whose reach the operation's words
lie comes to the plain meaning (`Site.handle_plain`), so views that reach the same words agree.
-/

namespace Qcvm

open Lib

lemma Core.Alike.symm {core core' : Core} (h : core.Alike Eq core') : core'.Alike Eq core := by
  obtain ⟨_, _, rfl, rfl⟩ := h
  exact ⟨core.x.pc, core.traced, rfl, rfl⟩

namespace View

variable {V : View} {s : Arr Byte}

/-- A row of words read through the view. -/
lemma getWords_eq (c : V.covers s) {m : Memory} (here : m.s = s) {o n : Nat}
    (reaches : ∀ k < n, V.Reaches (o + 4 * k)) :
    V.getWords s o n = (List.range n).map fun k => m.g (o + 4 * k) := by
  refine List.map_congr_left fun k mem => ?_
  rw [g_eq c (reaches k (List.mem_range.mp mem)), Memory.g, here]

/-- A row of words written through the view. -/
lemma setWords_eq (m : Memory) (c : V.covers m.s) (o : Nat) (vs : List Word)
    (reaches : ∀ k < vs.length, V.Reaches (o + 4 * k)) :
    { m with s := V.setWords m.s o vs } = m.setGs o vs := by
  have all : ∀ v ∈ vs.zipIdx, V.Reaches (o + 4 * v.2) := fun v mem =>
    reaches v.2 (by simpa using List.snd_lt_of_mem_zipIdx mem)
  unfold setWords Memory.setGs
  generalize vs.zipIdx = row at all
  induction row generalizing m with
  | nil => rfl
  | cons v row ih =>
    obtain ⟨first, rest⟩ := List.forall_mem_cons.mp all
    rw [List.foldl_cons, List.foldl_cons, set_eq c first]
    exact ih (m.setG (o + 4 * v.2) v.1) c rest

end View

namespace Site

variable {site : Site} {core : Core} {F : FloatOps}

/-- What an operation names through a view is in the view's reach. -/
def Finds (site : Site) (core : Core) : Micro → Prop
  | .get s k | .set s k _ => site.view.Reaches (site.offset s k)
  | .getGlobal off | .setGlobal off _ => site.view.Reaches (site.gb + off)
  | .getRef k => site.view.Reaches (core.x.switchRef + 4 * k)
  | .storeField words => site.view.Reaches site.st.a ∧ site.view.Reaches site.st.b ∧ 0 < words ∧
      ∀ k < words, site.view.Reaches (site.st.c + 4 * k)
  | .storeThrough _ _ bytes => bytes ≠ []
  | .loadThrough words _ _ => 0 < words ∧ ∀ k < words, site.view.Reaches (site.st.c + 4 * k)
  | .compound _ => site.view.Reaches site.st.a ∧ site.view.Reaches site.st.b ∧
      site.view.Reaches site.st.c
  | _ => True

/-- The meaning of the operations in all of region S and without the fast paths. -/
def plain (site : Site) (F : FloatOps) : (f : Micro) → Core → f.Answer × Core
  | .get s k, core => (core.mem.g (site.offset s k), core)
  | .set s k v, core => ((), { core with mem := core.mem.setG (site.offset s k) v })
  | .getGlobal off, core => (core.mem.g (site.gb + off), core)
  | .setGlobal off v, core => ((), { core with mem := core.mem.setG (site.gb + off) v })
  | .getRef k, core => (core.mem.g (core.x.switchRef + 4 * k), core)
  | .storeField words, core =>
    let values := (List.range words).map fun k => core.mem.g (site.st.c + 4 * k)
    ((), (core.markPc site.pc).storeField (core.mem.g site.st.a) (core.mem.g site.st.b) values)
  | .storeThrough base offset bytes, core => (core.markPc site.pc).ptrWrite base offset bytes
  | .loadThrough words base offset, core =>
    let core := core.markPc site.pc
    match core.ptrRead (4 * words) base offset with
    | .ok bytes => (.ok (), { core with mem := core.mem.setGs site.st.c (blockWords bytes) })
    | .error kind => (.error kind, core)
  | .compound op, core =>
    (core.markPc site.pc).compoundPointerStore F (.compound op) site.st.a site.st.b site.st.c
  | f, core => site.handle F f core

lemma plain_view (V : View) (f : Micro) :
    { site with view := V }.plain F f core = site.plain F f core := by
  cases f <;> rfl

/-- A core whose memory has changed, with another stored `pc`. -/
lemma alike_withMem (m : Memory) (pc : Nat) :
    { core with mem := m }.Alike Eq { core.markPc pc with mem := m } :=
  ⟨pc, core.traced, rfl, rfl⟩

lemma storeField_plain (l : core.mem.Regions) (c : site.view.covers core.mem.s) {words : Nat}
    (finds : site.Finds core (.storeField words)) :
    (site.storeField words core).Alike Eq (site.plain F (.storeField words) core).2 := by
  obtain ⟨a, b, some, row⟩ := finds
  have read (o : Nat) (reach : site.view.Reaches o) : site.view.g core.mem.s o = core.mem.g o :=
    View.g_eq c reach
  unfold storeField plain
  dsimp only
  rw [read _ a, read _ b, View.getWords_eq c rfl row]
  split
  next mem taken =>
    have values : (List.range words).map (fun k => core.mem.g (site.st.c + 4 * k)) ≠ [] := by
      intro none
      have length := congrArg List.length none
      rw [List.length_map, List.length_range] at length
      exact absurd length (Nat.ne_of_gt some)
    have general : (core.markPc site.pc).storeField (core.mem.g site.st.a) (core.mem.g site.st.b)
        ((List.range words).map fun k => core.mem.g (site.st.c + 4 * k))
        = { core.markPc site.pc with mem := mem } :=
      @Core.storeField_of_view (core.markPc site.pc) l _ _ _ values mem taken
    rw [general]
    exact alike_withMem mem site.pc
  next => exact Core.Twin.alike (.refl _)

lemma storeThrough_plain (l : core.mem.Regions) (c : site.view.covers core.mem.s) {base offset : Word}
    {bytes : List Byte} (some : bytes ≠ []) :
    (site.storeThrough base offset bytes core).1 = ((core.markPc site.pc).ptrWrite base offset bytes).1 ∧
      (site.storeThrough base offset bytes core).2.Alike Eq
        ((core.markPc site.pc).ptrWrite base offset bytes).2 := by
  unfold storeThrough
  split
  next mem taken =>
    have general : (core.markPc site.pc).ptrWrite base offset bytes
        = (.ok (), { core.markPc site.pc with mem := mem }) :=
      @Core.ptrWrite_of_view (core.markPc site.pc) site.view l c base offset bytes some mem taken
    rw [general]
    exact ⟨rfl, alike_withMem mem site.pc⟩
  next => exact ⟨rfl, Core.Twin.alike (.refl _)⟩

lemma length_ptrReadView {m : Memory} {V : View} {p : Word} {n : Nat} {bytes : List Byte}
    (taken : m.ptrReadView V p n = some bytes) : bytes.length = n := by
  unfold Memory.ptrReadView View.bytes at taken
  split at taken
  next block found =>
    split at found
    next =>
      cases found
      cases taken
      exact Arr.length_slice _ _ _
    next => cases found
  next =>
    split at taken
    next =>
      split at taken
      next =>
        cases taken
        exact Arr.length_slice _ _ _
      next => cases taken
    next => cases taken

lemma loadThrough_plain (l : core.mem.Regions) (c : site.view.covers core.mem.s) {base offset : Word}
    {words : Nat} (finds : site.Finds core (.loadThrough words base offset)) :
    (site.loadThrough words base offset core).1
        = (site.plain F (.loadThrough words base offset) core).1 ∧
      (site.loadThrough words base offset core).2.Alike Eq
        (site.plain F (.loadThrough words base offset) core).2 := by
  obtain ⟨some, row⟩ := finds
  unfold loadThrough plain
  split
  next bytes taken =>
    have length : (blockWords bytes).length = words := by
      unfold blockWords
      rw [List.length_map, List.length_range, length_ptrReadView taken]
      omega
    have read : (core.markPc site.pc).ptrRead (4 * words) base offset = .ok bytes :=
      @Core.ptrRead_of_view (core.markPc site.pc) site.view l c _ (Nat.mul_pos (by omega) some) _ _ _
        taken
    have written := View.setWords_eq core.mem c site.st.c (blockWords bytes) (length.symm ▸ row)
    dsimp only
    rw [read]
    refine ⟨rfl, ?_⟩
    show { core with mem := { core.mem with s := site.view.setWords core.mem.s site.st.c _ } }.Alike Eq _
    rw [written]
    exact alike_withMem _ site.pc
  next =>
    dsimp only
    cases (core.markPc site.pc).ptrRead (4 * words) base offset with
    | ok bytes => exact ⟨rfl, Core.Twin.alike (.refl _)⟩
    | error kind => exact ⟨rfl, Core.Twin.alike (.refl _)⟩

lemma compound_plain (l : core.mem.Regions) (c : site.view.covers core.mem.s) {op : Compound}
    (finds : site.Finds core (.compound op)) :
    (site.compound F op core).1 = (site.plain F (.compound op) core).1 ∧
      (site.compound F op core).2.Alike Eq (site.plain F (.compound op) core).2 := by
  obtain ⟨a, b, here⟩ := finds
  have read (o : Nat) (reach : site.view.Reaches o) : site.view.g core.mem.s o = core.mem.g o :=
    View.g_eq c reach
  unfold compound plain
  dsimp only
  rw [read _ a, read _ b]
  split
  next v mem taken =>
    have general : (core.markPc site.pc).compoundPointerStore F (.compound op) site.st.a site.st.b
        site.st.c = (.ok (), { core.markPc site.pc with
          mem := { mem with s := site.view.set mem.s site.st.c v } }) :=
      @Core.compoundPointerStore_of_view (core.markPc site.pc) site.view l c F op _ _ _ here v mem taken
    rw [general]
    exact ⟨rfl, alike_withMem _ site.pc⟩
  next => exact ⟨rfl, Core.Twin.alike (.refl _)⟩

/-- An operation whose words the view reaches comes to its plain meaning. -/
theorem handle_plain (l : core.mem.Regions) (c : site.view.covers core.mem.s) {f : Micro}
    (finds : site.Finds core f) : (site.handle F f core).1 = (site.plain F f core).1 ∧
      (site.handle F f core).2.Alike Eq (site.plain F f core).2 := by
  have same (core : Core) : core.Alike Eq core := Core.Twin.alike (.refl core)
  cases f with
  | get s k | getGlobal off | getRef k => exact ⟨View.g_eq c finds, same core⟩
  | set s k v | setGlobal off v =>
    refine ⟨rfl, ?_⟩
    simp only [handle, plain, Core.withS, View.set_eq c finds]
    exact same _
  | storeField words => exact ⟨rfl, storeField_plain l c finds⟩
  | storeThrough base offset bytes => exact storeThrough_plain l c finds
  | loadThrough words base offset => exact loadThrough_plain l c finds
  | compound op => exact compound_plain l c finds
  | _ => exact ⟨rfl, same _⟩

/-- So an operation does the same through every view that reaches its words. -/
lemma handle_view {V : View} (l : core.mem.Regions) (c : site.view.covers core.mem.s)
    (c' : V.covers core.mem.s) {f : Micro} (finds : site.Finds core f)
    (finds' : { site with view := V }.Finds core f) :
    (site.handle F f core).1 = ({ site with view := V }.handle F f core).1 ∧
      (site.handle F f core).2.Alike Eq ({ site with view := V }.handle F f core).2 := by
  obtain ⟨value, alike⟩ := handle_plain (F := F) l c finds
  obtain ⟨value', alike'⟩ := handle_plain (F := F) l c' finds'
  rw [plain_view] at value' alike'
  exact ⟨value.trans value'.symm, alike.trans alike'.symm⟩

end Site

end Qcvm

import Qcvm.Lib.Flow
import Qcvm.Vm.Resume

/-!
# Unwinding and the return slot

Unwinding leaves one function after another, and leaving restores locals and, where a frame belongs
to other progs, copies the return slot and the shared globals over. So what is in the return slot of
the progs it ends in is what the copies bring there, and not always what was there before.
-/

namespace Qcvm

open Lib

/-! ## Where the bytes of region S come from -/

/-- The flow of `copy_g`. -/
def wordsFlow (size src dst words : Nat) : Flow :=
  .all (fun k => .copy size (src + 4 * k) (dst + 4 * k) 4) (List.range words)

/-- The flow of the copies of shared globals. -/
def pairsFlow (size : Nat) (ranges : List (Nat × Nat × Nat)) : Flow :=
  .all (fun r => wordsFlow size r.1 r.2.1 r.2.2) ranges

/-- The flow of `move_s`. -/
def moveFlow (size src dst len : Nat) : Flow :=
  if src + len > size ∨ dst + len > size then .stay else .copy size src dst len

/-- The flow of `switch_out`. -/
def outFlow (size : Nat) (progs : List ProgsState) (src dst : Nat) : Flow :=
  match progs[src]?, progs[dst]? with
  | some a, some b =>
    (wordsFlow size (a.gbase + ofsReturn) (b.gbase + ofsReturn) 3).andThen
      (pairsFlow size (pairs a b))
  | _, _ => .stay

namespace Core

/-- The flow of `leave` in a context. -/
def leaveFlow (core : Core) (c : Context) : Flow :=
  let size := core.mem.s.size
  let saved := core.mem.lsBase + 4 * (c.x.lsTop - c.x.localsWords)
  let restored := moveFlow size saved c.x.localsAddr (4 * c.x.localsWords)
  match c.frames with
  | [] => restored
  | frame :: _ =>
    if frame.prnum ≠ c.x.prnum then restored.andThen (outFlow size core.progs c.x.prnum frame.prnum)
    else restored

/-- The flow of leaving `n` functions one after another. -/
def leavesFlow (core : Core) : Nat → Context → Flow
  | 0, _ => .stay
  | n + 1, c => (core.leaveFlow c).andThen (core.leavesFlow n (c.leave core.resets))

/-- The flow of `unwind`. -/
def unwindFlow (core : Core) (depth : Nat) : Flow :=
  core.leavesFlow (core.frames.length - depth) core.context

end Core

namespace Memory

variable {m : Memory} {src dst words len : Nat}

/-- The bytes of a word read are those it was read from. -/
lemma getD_leBytes_wordAt {data : Arr Byte} {o j : Nat} (lt : j < 4) :
    (leBytes (wordAt data o)).getD j 0 = data.get (o + j) := by
  unfold wordAt leWord leBytes
  apply BitVec.eq_of_getLsbD_eq
  intro i hi
  have cases : j = 0 ∨ j = 1 ∨ j = 2 ∨ j = 3 := by omega
  rcases cases with rfl | rfl | rfl | rfl <;>
    simp only [List.getD_cons_succ, List.getD_cons_zero, BitVec.getLsbD_append,
      BitVec.getLsbD_extractLsb'] <;> grind

/-- A word that is copied. -/
lemma follows_setG_g : Arr.Follows (.copy m.s.size src dst 4) m.s (m.setG dst (m.g src)).s where
  size := rfl
  get i := by
    show (m.s.write dst (leBytes (m.g src))).get i = _
    rw [Arr.get_write, length_leBytes]
    unfold Flow.copy
    split
    next inside =>
      unfold g u32At
      split
      next =>
        rw [Option.getD_some, Option.map_some, Option.getD_some]
        exact getD_leBytes_wordAt (by omega)
      next =>
        have zero : ∀ j < 4, (leBytes (0 : Word)).getD j 0 = 0 := by decide
        exact zero _ (by omega)
    next => rfl

/-- A copy of words moves the bytes as `wordsFlow` says. -/
lemma follows_copyG :
    Arr.Follows (wordsFlow m.s.size src dst words) m.s (m.copyG src dst words).s :=
  Arr.Follows.foldl Memory.s (fun _ _ size => size ▸ follows_setG_g) _ rfl

/-- Copies of shared globals move the bytes as `pairsFlow` says. -/
lemma follows_copyPairs (ranges : List (Nat × Nat × Nat)) :
    Arr.Follows (pairsFlow m.s.size ranges) m.s (copyPairs m ranges).s :=
  Arr.Follows.foldl Memory.s (fun _ _ size => size ▸ follows_copyG) _ rfl

/-- A move of bytes moves them as `moveFlow` says. -/
lemma follows_moveS :
    Arr.Follows (moveFlow m.s.size src dst len) m.s ((m.moveS src dst len).getD m).s := by
  unfold moveFlow moveS
  split
  next => exact .refl _
  next fits =>
    refine ⟨rfl, fun i => ?_⟩
    show (m.s.copyWithin src dst len).get i = _
    rw [Arr.get_copyWithin]
    unfold Flow.copy
    rw [if_pos (show src + len ≤ m.s.size by omega)]
    by_cases inside : dst + len ≤ m.s.size ∧ dst ≤ i ∧ i < dst + len
    · rw [if_pos ⟨by omega, inside⟩, if_pos inside]
      rfl
    · rw [if_neg fun h => inside h.2, if_neg inside]
      rfl

end Memory

namespace Core

variable {core : Core}

/-- Switching back moves the bytes as `outFlow` says. -/
lemma follows_switchOut (src dst : Nat) :
    Arr.Follows (outFlow core.mem.s.size core.progs src dst) core.mem.s
      (core.switchOut src dst).mem.s := by
  unfold outFlow switchOut
  cases core.progs[src]? with
  | none => exact .refl _
  | some a =>
    cases core.progs[dst]? with
    | none => exact .refl _
    | some b =>
      have returned := @Memory.follows_copyG core.mem (a.gbase + ofsReturn) (b.gbase + ofsReturn) 3
      refine returned.andThen ?_
      rw [← returned.size]
      exact Memory.follows_copyPairs _

/-- Leaving a function moves the bytes as `leaveFlow` says. -/
lemma follows_leave : Arr.Follows (core.leaveFlow core.context) core.mem.s core.leave.mem.s := by
  have restored := @Memory.follows_moveS core.mem
    (core.mem.lsBase + 4 * (core.x.lsTop - core.x.localsWords)) core.x.localsAddr
    (4 * core.x.localsWords)
  unfold leaveFlow leave restoreLocals
  dsimp only [context]
  cases core.frames with
  | nil => exact restored
  | cons frame frames =>
    dsimp only
    by_cases same : frame.prnum = core.x.prnum
    · simp only [ne_eq, same, not_true_eq_false, if_false]
      exact restored
    · simp only [ne_eq, same, not_false_eq_true, if_true]
      refine restored.andThen ?_
      rw [← restored.size]
      exact @follows_switchOut { core.restoreLocals with
        frames := frames
        x := core.restoreLocals.resumeExec frame core.restoreLocals.x.lsTop } _ _

/-- A move of the core keeps what leaving moves. -/
lemma leaveFlow_congr {core' : Core} (m : Moved core core') (c : Context) :
    core'.leaveFlow c = core.leaveFlow c := by
  have shape := m.plain.shape
  simp only [Memory.shape, Memory.Shape.mk.injEq] at shape
  unfold leaveFlow
  rw [m.plain.progs, shape.1, shape.2.2.2.2.2.2.2.2.2.2.1]

/-- A move of the core keeps what leaving several functions moves. -/
lemma leavesFlow_congr {core' : Core} (m : Moved core core') (n : Nat) (c : Context) :
    core'.leavesFlow n c = core.leavesFlow n c := by
  induction n generalizing c with
  | zero => rfl
  | succ n ih =>
    unfold leavesFlow
    rw [leaveFlow_congr m, m.resets, ih]

/-- Leaving several functions moves the bytes as `leavesFlow` says. -/
lemma follows_leaves (n : Nat) (core : Core) :
    Arr.Follows (core.leavesFlow n core.context) core.mem.s (leave^[n] core).mem.s := by
  induction n generalizing core with
  | zero => exact .refl _
  | succ n ih =>
    have rest := ih core.leave
    rw [context_leave, leavesFlow_congr (moved_leave core)] at rest
    exact follows_leave.andThen rest

/-- Unwinding moves bytes as its flow says. -/
lemma follows_unwind (depth : Nat) :
    Arr.Follows (core.unwindFlow depth) core.mem.s (core.unwind depth).mem.s :=
  follows_leaves _ core

/-! ## The return slot -/

/-- The progs that unwinding ends in. -/
def unwindsTo (core : Core) (depth : Nat) : Nat := (core.context.unwind core.resets depth).x.prnum

/-- Unwinding leaves the return slot of the progs it ends in as it was. -/
def KeepsReturn (core : Core) (depth : Nat) : Prop :=
  let after := core.unwind depth
  let slot := after.gbase + ofsReturn
  ∀ k < 3, after.mem.g (slot + 4 * k) = core.mem.g (slot + 4 * k)

instance (core : Core) (depth : Nat) : Decidable (core.KeepsReturn depth) :=
  inferInstanceAs (Decidable (∀ k < 3, _))

/-- What the unwinding brings to the return slot of the progs it ends in is there already. -/
def ReturnAgrees (core : Core) (depth : Nat) : Prop :=
  ∀ k < 3, ∀ j < 4,
    let slot := core.gbaseOf (core.unwindsTo depth) + ofsReturn + 4 * k
    slot + 4 ≤ core.mem.s.size →
      ((core.unwindFlow depth (slot + j)).map core.mem.s.get).getD 0 = core.mem.s.get (slot + j)

/-- Unwinding comes to the globals of the progs it unwinds to. -/
lemma gbase_unwind (depth : Nat) :
    (core.unwind depth).gbase = core.gbaseOf (core.unwindsTo depth) := by
  have context := core.context_unwind depth
  have progs := (core.moved_unwind depth).plain.progs
  unfold gbase gbaseOf unwindsTo
  rw [progs, ← context]
  rfl

/-- Words are equal exactly if their bytes are. -/
lemma wordAt_eq_iff {a b : Arr Byte} {o : Nat} :
    wordAt a o = wordAt b o ↔ ∀ j < 4, a.get (o + j) = b.get (o + j) := by
  constructor
  · intro same j lt
    rw [← Memory.getD_leBytes_wordAt lt, same, Memory.getD_leBytes_wordAt lt]
  · intro same
    refine wordAt_congr fun i lo hi => ?_
    have byte := same (i - o) (by omega)
    rw [Nat.add_sub_cancel' lo] at byte
    exact byte

/-- A word of two memories is the same exactly when its bytes are, or it is out of range. -/
lemma g_eq_iff {m m' : Memory} {o : Nat} (size : m'.s.size = m.s.size) :
    m'.g o = m.g o ↔ (o + 4 ≤ m.s.size → ∀ j < 4, m'.s.get (o + j) = m.s.get (o + j)) := by
  unfold Memory.g u32At
  rw [size]
  split
  next fits =>
    rw [Option.getD_some, Option.getD_some, wordAt_eq_iff]
    exact ⟨fun same _ => same, fun same => same fits⟩
  next out => exact ⟨fun _ fits => absurd fits out, fun _ => rfl⟩

/-- Unwinding keeps RETURN exactly if its bytes agree with where they come from. -/
lemma keepsReturn_iff (depth : Nat) : core.KeepsReturn depth ↔ core.ReturnAgrees depth := by
  have flow := @follows_unwind core depth
  unfold KeepsReturn ReturnAgrees
  dsimp only
  rw [gbase_unwind]
  refine forall₂_congr fun k _ => ?_
  rw [g_eq_iff flow.size]
  constructor
  · intro same j lt fits
    rw [← same fits j lt, flow.get]
    rfl
  · intro same fits j lt
    rw [← same j lt fits, flow.get]
    rfl

/-! ## Programs that keep off the return slot -/

end Core

/-- Words of region S keep off the return slot of a progs. -/
def ProgsState.OffReturn (ps : ProgsState) (addr words : Nat) : Prop :=
  addr + 4 * words ≤ ps.gbase + ofsReturn ∨ ps.gbase + ofsReturn + 12 ≤ addr

/-- The return slots of the progs lie apart in region S, and no locals and no shared global overlap
them. -/
structure Core.ReturnsClear (core : Core) : Prop where
  known : core.x.prnum < core.progs.length ∧ ∀ f ∈ core.frames, f.prnum < core.progs.length
  inside : ∀ ps ∈ core.progs, ps.gbase + ofsReturn + 12 ≤ core.mem.s.size
  apart : ∀ (i j : Nat) (a b : ProgsState), core.progs[i]? = some a → core.progs[j]? = some b →
    i ≠ j → a.OffReturn (b.gbase + ofsReturn) 3
  locals : ∀ ps ∈ core.progs, ps.OffReturn core.x.localsAddr core.x.localsWords ∧
    ∀ f ∈ core.frames, ps.OffReturn f.localsAddr f.localsWords
  shared : ∀ ps ∈ core.progs, ∀ other ∈ core.progs, ∀ g, some g ∈ other.shared →
    ps.OffReturn g.offset g.words

instance (ps : ProgsState) (addr words : Nat) : Decidable (ps.OffReturn addr words) :=
  inferInstanceAs (Decidable (_ ∨ _))

instance (core : Core) : Decidable core.ReturnsClear :=
  decidable_of_iff
    ((core.x.prnum < core.progs.length ∧ ∀ f ∈ core.frames, f.prnum < core.progs.length) ∧
      (∀ ps ∈ core.progs, ps.gbase + ofsReturn + 12 ≤ core.mem.s.size) ∧
      (∀ i < core.progs.length, ∀ j < core.progs.length, i ≠ j → ∀ a ∈ core.progs[i]?,
        ∀ b ∈ core.progs[j]?, a.OffReturn (b.gbase + ofsReturn) 3) ∧
      (∀ ps ∈ core.progs, ps.OffReturn core.x.localsAddr core.x.localsWords ∧
        ∀ f ∈ core.frames, ps.OffReturn f.localsAddr f.localsWords) ∧
      ∀ ps ∈ core.progs, ∀ other ∈ core.progs, ∀ shared ∈ other.shared, ∀ g ∈ shared,
        ps.OffReturn g.offset g.words)
    ⟨fun ⟨known, inside, apart, locals, shared⟩ => ⟨known, inside,
        fun i j a b here there differ => apart i (List.getElem?_eq_some_iff.mp here).1 j
          (List.getElem?_eq_some_iff.mp there).1 differ a here b there,
        locals, fun ps mem other mem' g has => shared ps mem other mem' _ has g rfl⟩,
      fun c => ⟨c.known, c.inside, fun i _ j _ differ a here b there => c.apart i j a b here there differ,
        c.locals, fun ps mem other mem' _ has g is => c.shared ps mem other mem' g (is ▸ has)⟩⟩

/-- A copy of words leaves the bytes outside its target. -/
lemma wordsFlow_of_outside {size src dst words o : Nat} (out : o < dst ∨ dst + 4 * words ≤ o) :
    wordsFlow size src dst words o = some o :=
  Flow.all_of_stay fun k mem => Flow.copy_of_outside (by
    have := List.mem_range.mp mem
    omega)

/-- Words that are copied between ranges apart come from where they are copied. -/
lemma wordsFlow_of_inside {size src dst words i : Nat} (fits : dst + 4 * words ≤ size)
    (from' : src + 4 * words ≤ size) (apart : src + 4 * words ≤ dst ∨ dst + 4 * words ≤ src)
    (lt : i < 4 * words) : wordsFlow size src dst words (dst + i) = some (src + i) := by
  induction words with
  | zero => omega
  | succ n ih =>
    have split : wordsFlow size src dst (n + 1) =
        (wordsFlow size src dst n).andThen (.copy size (src + 4 * n) (dst + 4 * n) 4) := by
      unfold wordsFlow
      rw [List.range_succ, Flow.all_append]
    rw [split]
    unfold Flow.andThen
    by_cases last : 4 * n ≤ i
    · rw [Flow.copy_of_inside (by omega) (by omega) (by omega) (by omega), Option.bind_some,
        wordsFlow_of_outside (by omega)]
      congr 1
      omega
    · rw [Flow.copy_of_outside (by omega), Option.bind_some]
      exact ih (by omega) (by omega) (by omega) (by omega)

/-- Copies of shared globals leave the bytes outside their targets. -/
lemma pairsFlow_of_outside {size o : Nat} {ranges : List (Nat × Nat × Nat)}
    (out : ∀ r ∈ ranges, o < r.2.1 ∨ r.2.1 + 4 * r.2.2 ≤ o) : pairsFlow size ranges o = some o :=
  Flow.all_of_stay fun r mem => wordsFlow_of_outside (out r mem)

/-- A move leaves the bytes outside its target. -/
lemma moveFlow_of_outside {size src dst len o : Nat} (out : o < dst ∨ dst + len ≤ o) :
    moveFlow size src dst len o = some o := by
  unfold moveFlow
  split
  next => rfl
  next => exact Flow.copy_of_outside out

/-- The target of a shared copy is a shared global of the other progs. -/
lemma shared_of_pairs {a b : ProgsState} {r : Nat × Nat × Nat} (mem : r ∈ pairs a b) :
    ∃ g, some g ∈ b.shared ∧ r.2.1 = g.offset ∧ r.2.2 ≤ g.words := by
  unfold pairs at mem
  obtain ⟨⟨x, y⟩, zipped, e⟩ := List.mem_filterMap.mp mem
  cases x with
  | none => cases e
  | some x =>
    cases y with
    | none => cases e
    | some y =>
      cases e
      exact ⟨y, (List.of_mem_zip zipped).2, rfl, Nat.min_le_right _ _⟩

namespace Core.ReturnsClear

variable {core : Core}

/-- Leaving a function keeps RETURN clear. -/
lemma leave (c : core.ReturnsClear) : core.leave.ReturnsClear := by
  have m := moved_leave core
  have progs := m.plain.progs
  have size : core.leave.mem.s.size = core.mem.s.size :=
    congrArg Memory.Shape.sSize m.plain.shape
  have context := core.context_leave
  have x : core.leave.x = core.leave.context.x := rfl
  have frames : core.leave.frames = core.leave.context.frames := rfl
  refine ⟨?_, ?_, ?_, ?_, ?_⟩
  · rw [x, frames, context, progs]
    unfold Context.leave
    dsimp only [Core.context]
    cases here : core.frames with
    | nil => exact ⟨c.known.1, fun f mem => absurd mem List.not_mem_nil⟩
    | cons frame rest =>
      have known := c.known.2
      rw [here] at known
      exact ⟨known frame List.mem_cons_self, fun f mem => known f (List.mem_cons_of_mem _ mem)⟩
  · rw [progs, size]
    exact c.inside
  · rw [progs]
    exact c.apart
  · rw [x, frames, context, progs]
    unfold Context.leave
    dsimp only [Core.context]
    intro ps mem
    cases here : core.frames with
    | nil => exact ⟨(c.locals ps mem).1, fun f mem => absurd mem List.not_mem_nil⟩
    | cons frame rest =>
      have locals := (c.locals ps mem).2
      rw [here] at locals
      exact ⟨locals frame List.mem_cons_self, fun f mem => locals f (List.mem_cons_of_mem _ mem)⟩
  · rw [progs]
    exact c.shared

/-- Leaving a function delivers its return slot to the caller's progs. -/
lemma get_leave (c : core.ReturnsClear) {i : Nat} (lt : i < 12) :
    core.leave.mem.s.get (core.gbaseOf core.leave.x.prnum + ofsReturn + i) =
      core.mem.s.get (core.gbaseOf core.x.prnum + ofsReturn + i) := by
  have flow := @follows_leave core
  obtain ⟨a, here⟩ : ∃ a, core.progs[core.x.prnum]? = some a :=
    ⟨_, List.getElem?_eq_getElem c.known.1⟩
  have mem := List.mem_of_getElem? here
  have locals := (c.locals a mem).1
  unfold ProgsState.OffReturn at locals
  have still (size src : Nat) : moveFlow size src core.x.localsAddr (4 * core.x.localsWords)
      (a.gbase + ofsReturn + i) = some (a.gbase + ofsReturn + i) :=
    moveFlow_of_outside (by omega)
  have base : core.gbaseOf core.x.prnum = a.gbase := by
    unfold gbaseOf
    rw [here]
    rfl
  have prnum : core.leave.x.prnum = (core.context.leave core.resets).x.prnum := by
    rw [← context_leave]
    rfl
  rw [base, prnum]
  refine flow.get_of ?_
  unfold leaveFlow Context.leave
  dsimp only [Core.context]
  cases frames : core.frames with
  | nil =>
    dsimp only
    rw [base]
    exact still _ _
  | cons frame rest =>
    have known := c.known.2 frame (frames ▸ List.mem_cons_self)
    obtain ⟨b, there⟩ : ∃ b, core.progs[frame.prnum]? = some b :=
      ⟨_, List.getElem?_eq_getElem known⟩
    have mem' := List.mem_of_getElem? there
    have base' : core.gbaseOf frame.prnum = b.gbase := by
      unfold gbaseOf
      rw [there]
      rfl
    show (if frame.prnum ≠ core.x.prnum then (_ : Flow) else _)
      (core.gbaseOf frame.prnum + ofsReturn + i) = _
    by_cases same : frame.prnum = core.x.prnum
    · simp only [ne_eq, same, not_true_eq_false, if_false]
      rw [base]
      exact still _ _
    · simp only [ne_eq, same, not_false_eq_true, if_true]
      rw [base']
      unfold outFlow Flow.andThen
      rw [here, there]
      have apart := c.apart _ _ b a there here same
      unfold ProgsState.OffReturn at apart
      have shared : ∀ r ∈ pairs a b, b.gbase + ofsReturn + i < r.2.1 ∨
          r.2.1 + 4 * r.2.2 ≤ b.gbase + ofsReturn + i := by
        intro r mem''
        obtain ⟨g, listed, start, less⟩ := shared_of_pairs mem''
        have off := c.shared b mem' b mem' g listed
        unfold ProgsState.OffReturn at off
        omega
      have room := c.inside a mem
      have room' := c.inside b mem'
      dsimp only
      rw [pairsFlow_of_outside shared, Option.bind_some,
        wordsFlow_of_inside room' room (by omega) (by omega), Option.bind_some]
      exact still _ _

/-- Unwinding keeps RETURN clear. -/
lemma unwind (c : core.ReturnsClear) (depth : Nat) : (core.unwind depth).ReturnsClear := by
  unfold Core.unwind
  generalize core.frames.length - depth = n
  induction n generalizing core with
  | zero => exact c
  | succ n ih => exact ih c.leave

/-- The return slot of the running progs lies in region S. -/
lemma slot_le (c : core.ReturnsClear) :
    core.gbaseOf core.x.prnum + ofsReturn + 12 ≤ core.mem.s.size := by
  have here := List.getElem?_eq_getElem c.known.1
  have inside := c.inside _ (List.mem_of_getElem? here)
  unfold gbaseOf
  rw [here]
  exact inside

/-- Unwinding delivers the return slot of the running function to the progs it ends in. -/
lemma get_unwind (c : core.ReturnsClear) (depth : Nat) {i : Nat} (lt : i < 12) :
    (core.unwind depth).mem.s.get (core.gbaseOf (core.unwindsTo depth) + ofsReturn + i) =
      core.mem.s.get (core.gbaseOf core.x.prnum + ofsReturn + i) := by
  have prnum : core.unwindsTo depth = (core.unwind depth).x.prnum := by
    unfold unwindsTo
    rw [← context_unwind]
    rfl
  rw [prnum]
  clear prnum
  unfold Core.unwind
  generalize core.frames.length - depth = n
  induction n generalizing core with
  | zero => rfl
  | succ n ih =>
    have rest := ih c.leave
    have same (pr : Nat) : core.leave.gbaseOf pr = core.gbaseOf pr := by
      unfold gbaseOf
      rw [(moved_leave core).plain.progs]
    rw [same, same, c.get_leave lt] at rest
    exact rest

end Core.ReturnsClear

namespace Core

/-- Where nothing else touches the return slots, unwinding keeps one exactly when the running
function has the same in its own. -/
lemma keepsReturn_iff_of_clear {core : Core} (c : core.ReturnsClear) (depth : Nat) :
    core.KeepsReturn depth ↔ ∀ k < 3,
      core.mem.g (core.gbaseOf core.x.prnum + ofsReturn + 4 * k) =
        core.mem.g (core.gbaseOf (core.unwindsTo depth) + ofsReturn + 4 * k) := by
  have size : (core.unwind depth).mem.s.size = core.mem.s.size :=
    congrArg Memory.Shape.sSize (core.moved_unwind depth).plain.shape
  have slot := c.slot_le
  have slot' : core.gbaseOf (core.unwindsTo depth) + ofsReturn + 12 ≤ core.mem.s.size := by
    have le := (c.unwind depth).slot_le
    rw [size] at le
    have base := core.gbase_unwind depth
    exact base ▸ le
  have delivered (k : Nat) (lt : k < 3) :
      (core.unwind depth).mem.g (core.gbaseOf (core.unwindsTo depth) + ofsReturn + 4 * k) =
        core.mem.g (core.gbaseOf core.x.prnum + ofsReturn + 4 * k) := by
    unfold Memory.g u32At
    rw [size, if_pos (by omega), if_pos (by omega), Option.getD_some, Option.getD_some]
    refine wordAt_eq fun j hj => ?_
    rw [Memory.getD_leBytes_wordAt hj, Nat.add_assoc, Nat.add_assoc _ (4 * k)]
    exact c.get_unwind depth (by omega)
  unfold KeepsReturn
  dsimp only
  rw [gbase_unwind]
  refine forall₂_congr fun k lt => ?_
  rw [delivered k lt]

/-- **Unwinding keeps the return slot exactly when what it copies there is there already.** -/
theorem unwind_return (core : Core) (depth : Nat) :
    (core.KeepsReturn depth ↔ core.ReturnAgrees depth) ∧
      (core.ReturnsClear → (core.KeepsReturn depth ↔ ∀ k < 3,
        core.mem.g (core.gbaseOf core.x.prnum + ofsReturn + 4 * k) =
          core.mem.g (core.gbaseOf (core.unwindsTo depth) + ofsReturn + 4 * k))) :=
  ⟨keepsReturn_iff depth, fun c => keepsReturn_iff_of_clear c depth⟩

end Core

/-- A function of added progs that a builtin of the main progs calls has set its return slot, and is
in a builtin of its own. -/
def callAcross (l : Loaded) : List Action :=
  .host (.addProgs l true) :: callSleeper ++ [.call (.new 1 2) [], .run [] false] ++
    [.host (.setGlobal 4194456 7)]

/-- A builtin that fails there leaves the value in the return slot of the main progs. -/
theorem unwind_return_crossing : ¬ ∀ (F : FloatOps) (s : Sys), s.Reachable F →
    ∀ depth, s.vm.core.KeepsReturn depth := by
  intro claim
  have test : (Asm.callsBuiltin.boot .one .menu).any (fun vm => Asm.callsBuiltin.load.any fun l =>
      (vm.start.actsIdleReset .onZero (callAcross l)).any fun s =>
        !decide (s.vm.core.KeepsReturn 1)) = true := by
    decide +kernel
  obtain ⟨vm, boot, test⟩ := (Option.any_eq_true _ _).mp test
  obtain ⟨l, -, test⟩ := (Option.any_eq_true _ _).mp test
  obtain ⟨s, acts, test⟩ := (Option.any_eq_true _ _).mp test
  have keeps := claim .onZero s (reachable_boot boot acts) 1
  rw [decide_eq_true keeps] at test
  cases test

-- Nothing but the copies of the crossing touches the return slots there.
example : (Asm.callsBuiltin.boot .one .menu).any (fun vm => Asm.callsBuiltin.load.any fun l =>
    (vm.start.actsIdleReset .onZero (callAcross l)).any fun s =>
      decide s.vm.core.ReturnsClear && s.vm.core.progs.length == 2) = true := by
  decide +kernel

end Qcvm

import Qcvm.Vm.Restore
import Qcvm.Vm.Resume
import Qcvm.Vm.Running

/-!
# The instruction budget

A statement that is not charged moves on to the next one, and the code ends with a statement that
fails; so a run of the interpreter stops after as many statements as its budget allows. What is
charged is taken from a budget that a host call shares with all the calls its builtins make.
-/

namespace Qcvm

open Lib

/-! ## Runs stop -/

/-- The index at which the view finds a statement. -/
def View.index (V : View) (pc : Nat) : Nat :=
  match V with
  | .whole => pc
  | .window => pc % codeWindow

/-- The length of the longest code of a core's programs, without the sentinel and the padding. -/
def Core.fileStatements (core : Core) : Nat :=
  core.progs.foldr (fun ps n => max ps.program.fileStatements n) 0

/-- The statements a run may still execute: a round of the code for each count of the budget. -/
def At.left (V : View) (length : Nat) (a : At) : Nat :=
  a.budget * (length + 1) + (length - V.index a.pc)

/-- What a run relies on to stop: its progs are linked, and those in the window fill it. -/
structure Core.Runs (V : View) (core : Core) : Prop where
  linked : core.Linked
  small : core.mem.s.size ≤ u32Max
  fits : V = .window → windowFits core = true

/-- A view finds the statement at the index it reads. -/
lemma stmtAt_eq (V : View) (code : Arr Stmt) (pc : Nat) :
    V.stmtAt code pc = code.get? (V.index pc) := by
  cases V <;> rfl

/-- A maximum over a list bounds each of its elements. -/
lemma le_foldr_max {α : Type} (f : α → Nat) {l : List α} {a : α} (mem : a ∈ l) :
    f a ≤ l.foldr (fun b n => max (f b) n) 0 := by
  induction l with
  | nil => cases mem
  | cons first rest ih =>
    rw [List.foldr_cons]
    rcases List.mem_cons.mp mem with rfl | mem
    · exact Nat.le_max_left _ _
    · exact Nat.le_trans (ih mem) (Nat.le_max_right _ _)

/-- A statement that is not the sentinel is on file. -/
lemma ProgsState.Linked.lt_of_real {ps : ProgsState} {size : Nat} (l : ps.Linked size) {i : Nat}
    (lt : i < ps.code.size) (real : (ps.code.get i).op ≠ .jumpOutOfRange) :
    i < ps.program.fileStatements := by
  by_contra ge
  refine real ?_
  have get := @get_code _ ps.gbase l.sound i
  rw [← l.code] at get
  rw [get lt]
  split
  next le =>
    rw [show i = ps.program.fileStatements by omega, l.sound.sentinel]
    rfl
  next => rfl

namespace Core

variable {core core' : Core} {V : View}

/-- A plain change keeps a core running in its view. -/
lemma Runs.plain (runs : core.Runs V) (p : core.Plain core') : core'.Runs V where
  linked := by
    have size : core'.mem.s.size = core.mem.s.size := congrArg Memory.Shape.sSize p.shape
    obtain ⟨progs, main, added⟩ := runs.linked
    refine ⟨?_, ?_, ?_⟩
    · rw [size, p.progs]
      exact progs
    · rw [p.progs]
      exact main
    · rw [size, p.progs]
      exact added
  small := (congrArg Memory.Shape.sSize p.shape).trans_le runs.small
  fits window := p.windowFits.trans (runs.fits window)

/-- A statement that goes on to the next is on file, and the next follows it. -/
lemma Runs.succ (runs : core.Runs V) {code : Arr Stmt} (loaded : ∃ ps ∈ core.progs, code = ps.code)
    {pc : Nat} {st : Stmt} (found : V.stmtAt code pc = some st) (real : st.op ≠ .jumpOutOfRange) :
    V.index (wrappingAdd pc 1) = V.index pc + 1 ∧ V.index pc < core.fileStatements := by
  obtain ⟨ps, mem, rfl⟩ := loaded
  have linked := runs.linked.progs ps mem
  rw [stmtAt_eq] at found
  obtain ⟨lt, rfl⟩ := Arr.get?_eq_some.mp found
  have succ := linked.succ_lt lt real
  have size := linked.size_le
  refine ⟨?_, Nat.lt_of_lt_of_le (linked.lt_of_real lt real)
    (le_foldr_max (fun ps : ProgsState => ps.program.fileStatements) mem)⟩
  unfold wrappingAdd
  cases V with
  | whole =>
    have succ : pc + 1 < ps.code.size := succ
    exact Nat.mod_eq_of_lt (by omega)
  | window =>
    have fits := List.all_eq_true.mp (Bool.and_eq_true_iff.mp (runs.fits rfl)).2 ps mem
    rw [decide_eq_true_eq] at fits
    have succ : pc % codeWindow + 1 < ps.code.size := succ
    show (pc + 1) % (u32Max + 1) % codeWindow = pc % codeWindow + 1
    unfold u32Max codeWindow at *
    omega

end Core

section Runs

variable {F : FloatOps} {V : View} {trace : Bool} {exitDepth : Nat} {core : Core} {a : At}

/-- The budget the loop has left, or stopped with. -/
def BudgetAt (budget : Nat) : Status At Stop → Prop :=
  Status.Holds (fun a => a.budget = budget) fun stop => stop.budget = budget

/-- Reloading the registers keeps the budget. -/
lemma budget_reload (V : View) (core : Core) (budget cachedPr : Nat) (cached : Arr Stmt) :
    BudgetAt budget (reload V core budget cachedPr cached) := by
  unfold reload
  dsimp only
  split
  next => rfl
  next ps _ =>
    generalize (if cachedPr ≠ core.x.prnum then ps.code else cached) = code
    split
    next => rfl
    next =>
      split
      next => rfl
      next => rfl

/-- The start of a run keeps the budget. -/
lemma budget_start (V : View) (core : Core) (budget : Nat) :
    BudgetAt budget (start V core budget) := by
  unfold start
  split
  next => rfl
  next => exact budget_reload _ _ _ _ _

/-- What follows the charge of a statement takes nothing from the budget. -/
lemma budget_proceed (a : At) (r : Except ErrorKind After × Core) :
    BudgetAt a.budget (proceed V a r) := by
  unfold proceed
  dsimp only
  split
  next => rfl
  next => rfl
  next => rfl
  next => exact budget_reload _ _ _ _ _
  next => rfl
  next => rfl

/-- A statement that is charged takes one count of the budget. -/
lemma budget_charge (a : At) (st : Stmt) (after : Arm After) :
    BudgetAt (a.budget - 1) (charge F V trace a st after) := by
  unfold charge
  dsimp only
  split
  next => rfl
  next => exact budget_proceed ⟨a.core, a.loc, a.pc, a.budget - 1⟩ _

/-- The run does not go on with a spent budget. -/
lemma charge_running {st : Stmt} {after : Arm After} {a' : At}
    (e : charge F V trace a st after = .running a') :
    a'.budget = a.budget - 1 ∧ a.budget - 1 ≠ 0 := by
  have kept := @budget_charge F V trace a st after
  rw [e] at kept
  refine ⟨kept, fun spent => ?_⟩
  unfold charge at e
  rw [if_pos spent] at e
  cases e

/-- A count of the budget pays for a round of the code. -/
lemma left_of_charged {length budget rest : Nat} {a' : At} (spent : a'.budget = budget - 1)
    (more : budget - 1 ≠ 0) : a'.left V length < budget * (length + 1) + rest := by
  unfold At.left
  obtain ⟨n, rfl⟩ : ∃ n, budget = n + 1 := ⟨budget - 1, by omega⟩
  rw [spent, Nat.add_sub_cancel, Nat.succ_mul]
  omega

/-- A statement that does not end the run leaves fewer to execute. -/
lemma left_execute (runs : a.core.Runs V) (loaded : a.Loaded) :
    (execute F V trace exitDepth a).Holds
      (fun a' => a'.left V a.core.fileStatements < a.left V a.core.fileStatements)
      fun _ => True := by
  unfold execute
  split
  next => trivial
  next st found =>
    dsimp only
    split
    next => trivial
    next ended =>
      have real : st.op ≠ .jumpOutOfRange := Prog.run_value placed_statement ended
      obtain ⟨next, lt⟩ := runs.succ loaded.loaded found real
      show a.budget * _ + (_ - V.index (wrappingAdd a.pc 1)) < a.budget * _ + (_ - _)
      rw [next]
      omega
    next => trivial
    next after _ =>
      generalize Prog.run _ (statement F _ exitDepth) a.core = r
      cases e : charge F V trace { a with core := r.2 } st after with
      | done => trivial
      | running a' =>
        obtain ⟨spent, more⟩ := charge_running e
        exact left_of_charged spent more

/-- A step that does not end the run leaves fewer statements to execute. -/
lemma left_step (runs : a.core.Runs V) (loaded : a.Loaded) :
    (step F V trace exitDepth a).Holds
      (fun a' => a'.left V a.core.fileStatements < a.left V a.core.fileStatements)
      fun _ => True := by
  unfold step
  split
  next => trivial
  next =>
    dsimp only
    split
    next =>
      have untraced : a.core.Plain { a.core with traced := false } := ⟨rfl, rfl, rfl, rfl⟩
      exact left_execute (a := { a with core := { a.core with traced := false } })
        (runs.plain untraced) (loaded.of_eq rfl rfl)
    next => exact left_execute runs loaded

/-- What carries the measure along a run. -/
lemma keeps_step (runs : core.Runs V) (regions : core.mem.Regions)
    (i : core.Moved a.core ∧ a.Loaded) : (step F V trace exitDepth a).Holds
      (fun a' => (core.Moved a'.core ∧ a'.Loaded) ∧
        a'.left V core.fileStatements < a.left V core.fileStatements) fun _ => True := by
  have plain : core.Plain a.core := i.1.plain
  have same : a.core.fileStatements = core.fileStatements := by
    unfold Core.fileStatements
    rw [plain.progs]
  have moved := @movedFrom_step F V trace exitDepth a (i.1.regions regions)
  have loaded := @loadedAt_step F V trace exitDepth a i.2 (i.1.regions regions)
  have left := @left_step F V trace exitDepth a (runs.plain plain) i.2
  rw [same] at left
  cases e : step F V trace exitDepth a with
  | done => trivial
  | running a' =>
    rw [e] at moved loaded left
    exact ⟨⟨i.1.trans moved, loaded⟩, left⟩

/-- A run stops after as many statements as it has left. -/
lemma exists_done (runs : core.Runs V) (regions : core.mem.Regions) (budget : Nat) :
    ∃ n stop, n ≤ (budget + 1) * (core.fileStatements + 1) ∧
      Status.runFor (step F V trace exitDepth) n (start V core budget) = .done stop := by
  have loaded := loadedAt_start V core budget
  have moved := movedFrom_start V core budget
  have kept := budget_start V core budget
  cases e : start V core budget with
  | done stop => exact ⟨0, stop, Nat.zero_le _, rfl⟩
  | running a =>
    rw [e] at loaded moved kept
    obtain ⟨n, stop, le, done⟩ := Status.exists_done_of_measure
      (At.left V core.fileStatements)
      (fun _ i => @keeps_step F V trace exitDepth core _ runs regions i)
      ⟨moved, loaded⟩
    refine ⟨n, stop, Nat.le_trans le ?_, done⟩
    unfold At.left
    rw [show a.budget = budget from kept, Nat.succ_mul]
    omega

end Runs

/-- The statements a core's programs have on file are fewer than those of its padded code. -/
lemma fileStatements_le_codeLength {core : Core} (linked : core.Linked) :
    core.fileStatements ≤ codeLength core := by
  have padded : ∀ ps ∈ core.progs, ps.program.fileStatements ≤ ps.code.size := fun ps mem => by
    have size := (linked.progs ps mem).size_eq
    omega
  unfold Core.fileStatements codeLength
  generalize core.progs = progs at padded ⊢
  induction progs with
  | nil => exact Nat.le_refl _
  | cons ps rest ih =>
    have here := padded ps List.mem_cons_self
    have there := ih fun q mem => padded q (List.mem_cons_of_mem ps mem)
    simp only [List.foldr_cons]
    omega

/-- A run stops, and that is where the loop stops. -/
lemma Core.Runs.run_done {F : FloatOps} {V : View} {trace : Bool} {exitDepth : Nat} {core : Core}
    (runs : core.Runs V) (regions : core.mem.Regions) (budget : Nat) : ∃ n,
    Status.runFor (step F V trace exitDepth) n (start V core budget)
      = .done (run F V trace exitDepth core budget) := by
  obtain ⟨n, stop, le, done⟩ := @exists_done F V trace exitDepth core runs regions budget
  have bound : n ≤ runBound core budget :=
    Nat.le_trans le
      (Nat.mul_le_mul_left _ (Nat.succ_le_succ (fileStatements_le_codeLength runs.linked)))
  refine ⟨n, ?_⟩
  unfold run
  rw [Status.runFor_of_done done bound]
  exact done

/-- Where the loop stops is where a run stops. -/
lemma Core.Runs.run_eq {F : FloatOps} {V : View} {trace : Bool} {exitDepth : Nat} {core : Core}
    {budget n : Nat} {stop : Stop} (runs : core.Runs V) (regions : core.mem.Regions)
    (done : Status.runFor (step F V trace exitDepth) n (start V core budget) = .done stop) :
    run F V trace exitDepth core budget = stop := by
  obtain ⟨m, stopped⟩ := @run_done F V trace exitDepth core runs regions budget
  have here := Status.runFor_of_done done (Nat.le_max_left n m)
  have there := Status.runFor_of_done stopped (Nat.le_max_right n m)
  rw [here] at there
  cases there
  rfl

/-! ## What takes effect -/

/-- Whether the statement at `a` is counted and the budget pays for it. -/
def At.pays (F : FloatOps) (V : View) (exitDepth : Nat) (a : At) : Bool :=
  match V.stmtAt a.loc.code a.pc with
  | none => false
  | some st =>
    match ((statement F (a.site V st) exitDepth).run ((a.site V st).handle F) a.core).1 with
    | .ok (.charge _) => decide (a.budget - 1 ≠ 0)
    | _ => false

/-- Whether a step executes a statement that is counted and takes effect. -/
def At.takes (F : FloatOps) (V : View) (trace : Bool) (exitDepth : Nat) (a : At) : Bool :=
  if trace && !a.core.traced then false
  else
    let core := if trace then { a.core with traced := false } else a.core
    At.pays F V exitDepth { a with core := core }

/-- The counted statements that take effect in a run. -/
def runTakes (F : FloatOps) (V : View) (trace : Bool) (exitDepth : Nat) (core : Core)
    (budget : Nat) : Nat :=
  Status.countFor (step F V trace exitDepth) (At.takes F V trace exitDepth) (runBound core budget)
    (start V core budget)

namespace Vm

variable (F : FloatOps) (exitDepth : Nat)

/-- The counted statements that take effect in a run of the interpreter. -/
def interpretTakes (vm : Vm) (chunk : Nat) : Nat :=
  if vm.core.trace then runTakes F .whole true exitDepth vm.core chunk
  else
    let core := { vm.core with traced := false }
    if vm.window then runTakes F .window false exitDepth core chunk
    else runTakes F .whole false exitDepth core chunk

/-- The counted statements that take effect in all chunks up to the loop's next exit. -/
def chunksTake (expires : Bool) : List Nat → Vm → Nat
  | [], vm => vm.interpretTakes F exitDepth vm.budget
  | size :: sizes, vm =>
    vm.interpretTakes F exitDepth (min vm.budget size) +
      match vm.runChunk F exitDepth (min vm.budget size) with
      | (.more, vm) => if expires && sizes.isEmpty then 0 else chunksTake expires sizes vm
      | _ => 0

end Vm

namespace Sys

/-- The counted statements that take effect in an action. -/
def takes (F : FloatOps) (s : Sys) (a : Action) : Nat :=
  match a, s.stack with
  | .run sizes expires, p :: _ => Vm.chunksTake F p.exitDepth expires sizes s.vm
  | _, _ => 0

/-- The system is in a host call, in which `n` counted statements took effect so far: a call of the
host that QuakeC has not returned from, with all its builtins call, or a thread that `run_threads`
resumed. What the host and the builtins do in it is `good`. -/
inductive HostCall (F : FloatOps) (good : Sys → Action → Prop) : Nat → Sys → Prop where
  | call {s t : Sys} {f : FuncRef} {args : List Arg} : s.Reachable F → s.stack = [] →
    s.act F (.call f args) = some t → t.stack ≠ [] → HostCall F good 0 t
  | thread {s t : Sys} {thread : Thread} : s.Reachable F → s.Wakes F thread t → HostCall F good 0 t
  | goesOn {n : Nat} {s t : Sys} {a : Action} : HostCall F good n s → good s a →
    s.act F a = some t → t.stack ≠ [] → t.waking = s.waking → HostCall F good (n + s.takes F a) t

/-- No builtin resets the VM. -/
def KeepsVm (s : Sys) (a : Action) : Prop := s.resetsInside a = false

/-- The system after actions of a call of the host, and the counted statements that take effect in
them. -/
def actsTaking (F : FloatOps) : List Action → Sys → Option (Nat × Sys)
  | [], s => some (0, s)
  | a :: as, s => do
    let t ← s.act F a
    if t.stack.isEmpty || s.waking.isSome || t.waking.isSome then none
    let (n, u) ← actsTaking F as t
    return (s.takes F a + n, u)

end Sys

section Takes

variable {F : FloatOps} {V : View} {trace : Bool} {exitDepth : Nat}

/-- What the budget still pays for: the count that ends the run pays for nothing. -/
def remaining : Status At Stop → Nat
  | .running a => a.budget - 1
  | .done stop => stop.budget - 1

/-- A budget's last instruction is not run. -/
lemma remaining_of_budgetAt {budget : Nat} {st : Status At Stop} (b : BudgetAt budget st) :
    remaining st = budget - 1 := by
  cases st with
  | running a => exact congrArg (· - 1) b
  | done stop => exact congrArg (· - 1) b

/-- No statement adds to the budget. -/
lemma remaining_execute (a : At) : remaining (execute F V trace exitDepth a) ≤ a.budget - 1 := by
  unfold execute
  split
  next => exact Nat.le_refl _
  next st _ =>
    dsimp only
    split
    next => exact Nat.le_refl _
    next => exact Nat.le_refl _
    next => exact Nat.le_refl _
    next after _ =>
      generalize (Prog.run _ (statement F _ exitDepth) a.core).2 = core
      have spent := @budget_charge F V trace { a with core := core } st after
      rw [remaining_of_budgetAt spent]
      exact Nat.sub_le _ _

/-- A statement that is counted takes from the budget. -/
lemma remaining_of_pays {a : At} (pays : a.pays F V exitDepth = true) :
    1 + remaining (execute F V trace exitDepth a) ≤ a.budget - 1 := by
  unfold At.pays at pays
  split at pays
  next => cases pays
  next st found =>
    split at pays
    next after ended =>
      rw [decide_eq_true_eq] at pays
      unfold execute
      simp only [found, ended]
      generalize (Prog.run _ (statement F _ exitDepth) a.core).2 = core
      have spent := @budget_charge F V trace { a with core := core } st after
      rw [remaining_of_budgetAt spent]
      dsimp only
      omega
    next => cases pays

/-- A statement pays for what it takes. -/
lemma pays_execute (a : At) : (if a.pays F V exitDepth then 1 else 0) +
    remaining (execute F V trace exitDepth a) ≤ a.budget - 1 := by
  split
  next pays => exact remaining_of_pays pays
  next =>
    rw [Nat.zero_add]
    exact remaining_execute a

/-- A step pays for what it takes. -/
lemma pays_step (a : At) : (if a.takes F V trace exitDepth then 1 else 0) +
    remaining (step F V trace exitDepth a) ≤ remaining (.running a) := by
  unfold At.takes step
  split
  next => exact (Nat.zero_add _).le
  next =>
    dsimp only
    exact pays_execute { a with core := if trace then { a.core with traced := false } else a.core }

/-- A run takes no more than its budget pays for. -/
lemma runTakes_le (core : Core) (budget : Nat) :
    runTakes F V trace exitDepth core budget + ((run F V trace exitDepth core budget).budget - 1)
      ≤ budget - 1 := by
  have pays := Status.countFor_le remaining (@pays_step F V trace exitDepth)
    (runBound core budget) (start V core budget)
  rw [remaining_of_budgetAt (budget_start V core budget)] at pays
  unfold runTakes run
  split
  next stop e =>
    rw [e] at pays
    exact pays
  next =>
    rw [Nat.zero_sub, Nat.add_zero]
    exact Nat.le_trans (Nat.le_add_right _ _) pays

namespace Vm

/-- An interpretation takes from its chunk. -/
lemma interpretTakes_le (vm : Vm) (chunk : Nat) : vm.interpretTakes F exitDepth chunk +
    ((vm.interpret F exitDepth chunk).budget - 1) ≤ chunk - 1 := by
  unfold interpretTakes interpret
  split
  next => exact runTakes_le _ _
  next =>
    dsimp only
    split
    next => exact runTakes_le _ _
    next => exact runTakes_le _ _

/-- The budget of the VM pays for a chunk. -/
lemma takes_runChunk (vm : Vm) {chunk : Nat} (le : chunk ≤ vm.budget) :
    vm.interpretTakes F exitDepth chunk + (vm.runChunk F exitDepth chunk).2.budget ≤ vm.budget := by
  have takes := @Vm.interpretTakes_le F exitDepth vm chunk
  unfold runChunk
  dsimp only
  split
  next =>
    split
    next spent =>
      show _ + 0 ≤ vm.budget
      omega
    next more =>
      change ¬ vm.budget ≤ chunk at more
      show _ + (vm.budget - (chunk - 1)) ≤ vm.budget
      omega
  next =>
    show _ + (vm.budget - (chunk - _)) ≤ vm.budget
    omega

/-- The budget of the VM pays for all chunks. -/
lemma chunksTake_le (expires : Bool) (sizes : List Nat) (vm : Vm) :
    chunksTake F exitDepth expires sizes vm +
      (runChunks F exitDepth expires sizes vm).2.budget ≤ vm.budget := by
  induction sizes generalizing vm with
  | nil => exact vm.takes_runChunk (Nat.le_refl _)
  | cons size sizes ih =>
    have first := @takes_runChunk F exitDepth vm _ (Nat.min_le_left vm.budget size)
    unfold chunksTake runChunks
    generalize vm.runChunk F exitDepth (min vm.budget size) = r at first ⊢
    obtain ⟨verdict, next⟩ := r
    cases verdict with
    | more =>
      have rest := ih next
      dsimp only at first ⊢
      split
      next => exact first
      next => omega
    | exit exit => exact first
    | runaway => exact first
    | deadline => exact first

end Vm

end Takes

/-! ## Host calls -/

/-- A host call may take so many counts. -/
def VmConfig.counting (runaway : Nat) : VmConfig :=
  { VmConfig.menu with limits := { Limits.default with runaway := runaway } }

/-- The host cannot add to a budget. -/
lemma Vm.budget_host (vm : Vm) (F : FloatOps) (op : HostOp) :
    (vm.host F op).budget = vm.budget := by
  by_cases adds : ∃ loaded reserved, op = .addProgs loaded reserved
  · obtain ⟨loaded, reserved, rfl⟩ := adds
    unfold Vm.host
    dsimp only
    split
    next => rfl
    next => rfl
  · rw [Vm.host_of_ne fun loaded reserved e => adds ⟨loaded, reserved, e⟩]

/-- A host operation keeps the runaway limit. -/
lemma Core.Hosted.runaway {F : FloatOps} {op : HostOp} {core core' : Core}
    (h : core.Hosted F op core') :
    core'.config.limits.runaway = core.config.limits.runaway :=
  congrArg Limits.runaway h.limits

/-- A plain change keeps the runaway limit. -/
lemma Core.Plain.runaway {core core' : Core} (p : core.Plain core') :
    core'.config.limits.runaway = core.config.limits.runaway :=
  congrArg (fun config : VmConfig => config.limits.runaway) p.config

/-- Nothing but a reset builds a new VM, and it keeps the limits. -/
lemma Core.runawayKept (F : FloatOps) (runaway : Nat) :
    PlainKept F fun core => core.config.limits.runaway = runaway where
  plain h p := p.runaway.trans h
  host _ h _ := (Core.hosted _ _).runaway.trans h

namespace Sys

variable {F : FloatOps} {s t : Sys}

/-- The budget is within the limit. -/
def Funded (s : Sys) : Prop := s.vm.budget ≤ s.vm.core.config.limits.runaway

/-- A system with less budget is funded. -/
lemma Funded.of_le (f : s.Funded) (budget : t.vm.budget ≤ s.vm.budget)
    (runaway : t.vm.core.config.limits.runaway = s.vm.core.config.limits.runaway) : t.Funded := by
  unfold Funded at *
  omega

/-- A plain change keeps a system funded. -/
lemma Funded.plain (f : s.Funded) (p : s.vm.core.Plain t.vm.core)
    (budget : t.vm.budget = s.vm.budget) : t.Funded :=
  f.of_le budget.le p.runaway

/-- Every action keeps a system funded. -/
lemma funded_rules (a : Action) : Rules F a Funded Funded fun _ => Funded where
  weaken f := f
  calm f c := f.plain c.core.toPlain c.budget
  calmAfter f c := f.plain c.core.toPlain c.budget
  calmQueue f c := f.plain c.core.toPlain c.budget
  fund _ _ := Nat.le_refl _
  fundQueue _ _ := Nat.le_refl _
  host {s op} _ f _ _ := by
    refine f.of_le (Vm.budget_host _ _ _).le ?_
    show (s.vm.host F op).core.config.limits.runaway = _
    rw [Vm.core_host]
    exact (Core.hosted _ _).runaway
  reset {s} _ f _ _ := by
    unfold Vm.reset
    split
    next core e =>
      obtain ⟨sp, built⟩ := Core.built e
      exact f.of_le (Nat.le_refl _)
        (congrArg (fun config : VmConfig => config.limits.runaway) built.config)
    next => exact f
  enter {s f args argc topLevel pr entered} _ i _ _ e := by
    have moved := Core.moved_enter (s.vm.core.nested argc) f.progs f.index s.vm.core.x.pc
    rw [e] at moved
    exact i.plain ⟨moved.plain.shape, moved.plain.progs, moved.plain.fields, moved.plain.config⟩ rfl
  direct _ f _ _ := f.plain ⟨rfl, rfl, rfl, rfl⟩ rfl
  run {s p rest sizes expires saved} _ f b _ _ _ := by
    have ran : Vm.Ran p.exitDepth s.vm (Vm.runChunks F p.exitDepth expires sizes s.vm) :=
      Vm.ran_runChunks expires sizes s.vm b.layout.mem.toRegions
    exact f.of_le ran.budget ran.core.plain.runaway
  builtin f _ _ _ _ := f.plain ⟨rfl, rfl, rfl, rfl⟩ rfl
  doing f _ _ _ := f.plain (.refl _) rfl
  close {s p rest core argc builtin topLevel pr} f _ _ _ settled :=
    f.plain (settled.moved.plain.trans (p.plain_close core)) rfl
  closeThread {s p core queue ran} f _ _ _ settled :=
    f.plain (settled.moved.plain.trans (p.plain_close core)) rfl
  wake _ f _ _ := f.plain ⟨rfl, rfl, rfl, rfl⟩ rfl
  resume {s thread queue ran core} f _ _ e := by
    have plain := Core.plain_resumeThread { s.vm.core with nesting := s.vm.core.nesting + 1 } thread
    rw [e] at plain
    exact f.plain ⟨plain.shape, plain.progs, plain.fields, plain.config⟩ rfl
  stale {s thread queue kind core} f _ _ e := by
    have plain := Core.plain_resumeThread { s.vm.core with nesting := s.vm.core.nesting + 1 } thread
    rw [e] at plain
    exact f.plain ⟨plain.shape, plain.progs, plain.fields, plain.config⟩ rfl
  requeue f _ _ := f.plain ⟨rfl, rfl, rfl, rfl⟩ rfl
  idle f _ _ := f

/-- Every reachable system is funded. -/
lemma Reachable.funded (r : s.Reachable F) : s.Funded := by
  refine (Rules.reachable funded_rules (fun main builtins config vm start => ?_) r).2
  unfold Vm.new at start
  cases built : buildCore main.program builtins config with
  | error kind =>
    rw [built] at start
    cases start
  | ok core =>
    rw [built] at start
    cases start
    exact Nat.zero_le _

/-- A call is under way for which `waking` is in hand, and has at most `budget` left. -/
structure Spends (budget : Nat) (waking : Option (List Thread × Nat)) (s : Sys) : Prop where
  busy : s.stack ≠ []
  waits : s.waking = waking
  within : s.vm.budget ≤ budget

/-- While a host call goes on, nothing adds to its budget. -/
lemma spends_rules (budget : Nat) (waking : Option (List Thread × Nat)) (a : Action) :
    Rules F a (Spends budget waking)
      (fun s => s.stack ≠ [] → s.waking = waking → s.vm.budget ≤ budget)
      fun queue _ => ∃ behind ran, waking = some (behind, ran) ∧ queue.length ≤ behind.length where
  weaken i _ _ := i.within
  calm {s t} i c := by
    refine ⟨c.stack ▸ i.busy, ?_, c.budget.trans_le i.within⟩
    unfold Sys.waking
    rw [c.stack]
    exact i.waits
  calmAfter {s t} o c busy waits := by
    unfold Sys.waking at o waits
    rw [c.stack] at busy waits
    exact c.budget.trans_le (o busy waits)
  calmQueue j _ := j
  fund i idle := absurd idle i.busy
  fundQueue j _ := j
  host {s op} _ i _ _ _ _ := (Vm.budget_host _ _ _).trans_le i.within
  reset _ i _ idle := absurd idle i.busy
  enter _ i _ _ _ _ _ := i.within
  direct _ i _ _ _ _ := i.within
  run {s p rest sizes expires saved} _ i b _ _ _ := by
    have ran : Vm.Ran p.exitDepth s.vm (Vm.runChunks F p.exitDepth expires sizes s.vm) :=
      Vm.ran_runChunks expires sizes s.vm b.layout.mem.toRegions
    exact ⟨i.busy, i.waits, Nat.le_trans ran.budget i.within⟩
  builtin i _ _ _ _ _ _ := i.within
  doing i _ _ _ _ _ := i.within
  close i _ _ _ _ _ _ := i.within
  closeThread {s p core queue ran} i _ here origin _ := by
    have waits := i.waits
    unfold Sys.waking at waits
    rw [here] at waits
    simp only [List.getLast?_singleton, Option.bind_some, origin] at waits
    exact ⟨queue, ran, waits.symm, Nat.le_refl _⟩
  wake _ i _ idle := absurd idle i.busy
  resume {s thread queue ran core} j _ _ _ _ waits := by
    obtain ⟨behind, before, rfl, le⟩ := j
    cases waits
    exact absurd le (Nat.not_succ_le_self _)
  stale {s thread queue kind core} j _ _ _ := by
    obtain ⟨behind, before, same, le⟩ := j
    exact ⟨behind, before, same, Nat.le_of_succ_le le⟩
  requeue _ _ idle busy := absurd rfl busy
  idle _ _ idle busy := absurd idle busy

/-- The budget of a host call pays for what takes effect in an action. -/
lemma takes_act {a : Action} (b : s.Base) (busy : s.stack ≠ []) (e : s.actIdleReset F a = some t)
    (goesOn : t.stack ≠ []) (waits : t.waking = s.waking) :
    s.takes F a + t.vm.budget ≤ s.vm.budget := by
  have here : Spends s.vm.budget s.waking s := ⟨busy, rfl, Nat.le_refl _⟩
  by_cases run : ∃ sizes expires, a = .run sizes expires
  · obtain ⟨sizes, expires, rfl⟩ := run
    cases stack : s.stack with
    | nil => exact absurd stack busy
    | cons p rest =>
      have paid := @Vm.chunksTake_le F p.exitDepth expires sizes s.vm
      have ran : Vm.Ran p.exitDepth s.vm (Vm.runChunks F p.exitDepth expires sizes s.vm) :=
        Vm.ran_runChunks expires sizes s.vm b.layout.mem.toRegions
      have spent := (spends_rules (F := F) (Vm.runChunks F p.exitDepth expires sizes s.vm).2.budget
        s.waking (.run sizes expires)).run_act b e fun q rest' saved stack' _ _ => ?_
      · have left := spent.2 goesOn waits
        unfold takes
        rw [stack]
        dsimp only
        omega
      · cases stack.symm.trans stack'
        by_cases returned : (Vm.runChunks F p.exitDepth expires sizes s.vm).1 = .exit .returned
        · refine .inr ⟨returned, _, ran.core, ?_, busy, rfl, Nat.le_refl _⟩
          rw [Core.unwind, Nat.sub_eq_zero_of_le (ran.returned returned)]
          rfl
        · exact .inl ⟨returned, busy, rfl, Nat.le_refl _⟩
  · have none : s.takes F a = 0 := by
      unfold takes
      split
      next sizes expires _ _ _ => exact absurd ⟨sizes, expires, rfl⟩ run
      next => rfl
    rw [none, Nat.zero_add]
    exact ((spends_rules s.vm.budget s.waking a).act here b e).2 goesOn waits

/-- What took effect in a host call and what its budget still pays for are within the limit. -/
lemma HostCall.paid {n : Nat} (h : s.HostCall F KeepsVm n) :
    s.Reachable F ∧ s.stack ≠ [] ∧ n + s.vm.budget ≤ s.vm.core.config.limits.runaway := by
  induction h with
  | call r _ e busy =>
    have r := r.act ((actIdleReset_of_ne (by nofun)).trans e)
    exact ⟨r, busy, (Nat.zero_add _).trans_le r.funded⟩
  | @thread s t _ r w =>
    have r : t.Reachable F := w.later .here |>.reachable r
    obtain ⟨pre, core, p, resumed⟩ := w.resumed ‹s.Reachable F›.base
    refine ⟨r, ?_, (Nat.zero_add _).trans_le r.funded⟩
    rw [resumed.stack]
    exact List.cons_ne_nil _ _
  | @goesOn n s t a h good e busy waits ih =>
    obtain ⟨r, before, paid⟩ := ih
    have e : s.actIdleReset F a = some t := by
      unfold actIdleReset
      rw [show s.resetsInside a = false from good]
      exact e
    have other : a ≠ .reset := by
      rintro rfl
      exact before (actIdleReset_reset e).1
    have kept := ((Core.runawayKept F s.vm.core.config.limits.runaway).rules a
      fun reset => absurd reset other).act rfl r.base e
    have spent := takes_act r.base before e busy waits
    refine ⟨r.act e, busy, ?_⟩
    have same : t.vm.core.config.limits.runaway = s.vm.core.config.limits.runaway := kept.2
    omega

/-- Every run of the interpreter stops after as many statements as its budget allows, and the
counted statements that take effect in a host call, with all the calls its builtins make, are within
the limit, as long as no builtin resets the VM. -/
theorem hostCall_bounded (r : s.Reachable F) :
    (∀ (V : View) (trace : Bool) (exitDepth : Nat) (core : Core) (budget : Nat),
      (V = .window → s.vm.window = true) → s.vm.core.Plain core →
      ∃ n stop, n ≤ (budget + 1) * (core.fileStatements + 1) ∧
        Status.runFor (step F V trace exitDepth) n (start V core budget) = .done stop ∧
        run F V trace exitDepth core budget = stop) ∧
    ∀ n a, s.HostCall F KeepsVm n → n + s.takes F a ≤ s.vm.core.config.limits.runaway := by
  refine ⟨fun V trace exitDepth core budget window plain => ?_, fun n a call => ?_⟩
  · have layout := plain.layout r.base.layout
    have runs : s.vm.core.Runs V := by
      refine ⟨r.blocks.toLinked, r.base.layout.mem.small, fun view => ?_⟩
      rw [← r.windowed]
      exact window view
    have runs := runs.plain plain
    obtain ⟨n, stop, le, done⟩ := @exists_done F V trace exitDepth core runs
      layout.mem.toRegions budget
    exact ⟨n, stop, le, done, runs.run_eq layout.mem.toRegions done⟩
  · obtain ⟨r, busy, paid⟩ := call.paid
    refine Nat.le_trans (Nat.add_le_add_left ?_ n) paid
    unfold takes
    split
    next sizes expires p rest _ =>
      exact Nat.le_trans (Nat.le_add_right _ _) (Vm.chunksTake_le expires sizes s.vm)
    next => exact Nat.zero_le _

/-- A host call that goes on with good actions. -/
lemma HostCall.after {good : Sys → Action → Prop} {n m : Nat} {as : List Action}
    (h : s.HostCall F good n) (all : ∀ a ∈ as, ∀ s, good s a) (e : s.actsTaking F as = some (m, t)) :
    t.HostCall F good (n + m) := by
  induction as generalizing s n m with
  | nil =>
    cases e
    exact h
  | cons a as ih =>
    obtain ⟨here, all⟩ := List.forall_mem_cons.mp all
    unfold actsTaking at e
    obtain ⟨mid, act, e⟩ := Option.bind_eq_some_iff.mp e
    dsimp only at e
    split at e
    next => cases e
    next goes =>
      rw [Bool.not_eq_true, Bool.or_eq_false_iff, Bool.or_eq_false_iff, Option.isSome_eq_false_iff,
        Option.isSome_eq_false_iff, Option.isNone_iff_eq_none, Option.isNone_iff_eq_none] at goes
      obtain ⟨⟨busy, calls⟩, called⟩ := goes
      obtain ⟨⟨k, u⟩, rest, e⟩ := Option.bind_eq_some_iff.mp e
      cases e
      have goesOn := h.goesOn (here s) act (by simpa using busy) (called.trans calls.symm)
      rw [← Nat.add_assoc]
      exact ih goesOn all rest

/-- The function calls the builtin, which calls the function again and returns. -/
def callAgain : List Action :=
  [.run [] false, .call (.new 0 2) [], .run [] false, .finish (.ok ())]

/-- Whenever the function calls the builtin, it resets the VM and calls the function again. -/
def resetAndCall : List Action :=
  [.run [] false, .reset, .call (.new 0 2) [], .run [] false, .reset, .call (.new 0 2) []]

/-- At a builtin that calls the function it was called from. -/
theorem hostCall_bounded_callAgain : ∃ s : Sys, s.Reachable .onZero ∧
    (∃ n stop, n ≤ (7 + 1) * (s.vm.core.fileStatements + 1) ∧
      Status.runFor (step .onZero .whole true 0) n (start .whole s.vm.core 7) = .done stop) ∧
    s.HostCall .onZero KeepsVm 2 ∧ s.takes .onZero (.run [] false) = 1 ∧
    2 + s.takes .onZero (.run [] false) ≤ s.vm.core.config.limits.runaway := by
  have test : (Asm.callsBuiltin.boot .one (.counting 4)).any (fun vm =>
      (vm.start.act .onZero (.call (.new 0 2) [])).any fun t => !t.stack.isEmpty &&
        (t.actsTaking .onZero callAgain).any fun r =>
          r.1 == 2 && r.2.takes .onZero (.run [] false) == 1) = true := by
    decide +kernel
  obtain ⟨vm, boot, test⟩ := (Option.any_eq_true _ _).mp test
  obtain ⟨t, called, test⟩ := (Option.any_eq_true _ _).mp test
  obtain ⟨busy, test⟩ := Bool.and_eq_true_iff.mp test
  obtain ⟨⟨n, s⟩, acts, test⟩ := (Option.any_eq_true _ _).mp test
  obtain ⟨two, one⟩ := Bool.and_eq_true_iff.mp test
  obtain rfl : n = 2 := eq_of_beq two
  have begins : t.HostCall .onZero KeepsVm 0 :=
    .call (reachable_start boot) rfl called (by simpa using busy)
  have kept : ∀ a ∈ callAgain, ∀ s, KeepsVm s a := by
    intro a mem s
    simp only [callAgain, List.mem_cons, List.not_mem_nil, or_false] at mem
    rcases mem with rfl | rfl | rfl | rfl <;> rfl
  have call := begins.after kept acts
  obtain ⟨stops, bounded⟩ := hostCall_bounded call.paid.1
  obtain ⟨n, stop, le, done, -⟩ := stops .whole true 0 s.vm.core 7 nofun (.refl _)
  exact ⟨s, call.paid.1, ⟨n, stop, le, done⟩, call, eq_of_beq one, bounded _ _ call⟩

/-- With a limit of two counts, three statements take effect in a host call whose builtin resets the VM:
each call it makes then starts the budget again. -/
theorem hostCall_unbounded : ¬ ∀ (F : FloatOps) (s : Sys) (n : Nat) (a : Action),
    s.HostCall F (fun _ _ => True) n → n + s.takes F a ≤ s.vm.core.config.limits.runaway := by
  intro claim
  have test : (Asm.callsBuiltin.boot .one (.counting 2)).any (fun vm =>
      (vm.start.act .onZero (.call (.new 0 2) [])).any fun t => !t.stack.isEmpty &&
        (t.actsTaking .onZero resetAndCall).any fun r =>
          decide (r.2.vm.core.config.limits.runaway < r.1 + r.2.takes .onZero (.run [] false))) = true := by
    decide +kernel
  obtain ⟨vm, boot, test⟩ := (Option.any_eq_true _ _).mp test
  obtain ⟨t, called, test⟩ := (Option.any_eq_true _ _).mp test
  obtain ⟨busy, test⟩ := Bool.and_eq_true_iff.mp test
  obtain ⟨⟨n, s⟩, acts, more⟩ := (Option.any_eq_true _ _).mp test
  have begins : t.HostCall .onZero (fun _ _ => True) 0 :=
    .call (reachable_start boot) rfl called (by simpa using busy)
  have call := begins.after (fun _ _ _ => trivial) acts
  rw [Nat.zero_add] at call
  exact absurd (claim .onZero s n (.run [] false) call) (Nat.not_le.mpr (of_decide_eq_true more))

end Sys

end Qcvm

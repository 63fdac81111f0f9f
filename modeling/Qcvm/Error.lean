import Qcvm.Opcode

/-!
# Function references, errors and warnings

`value.rs` and `error.rs`: what the virtual machine reports, with the backtraces it attaches.
-/

namespace Qcvm

/-- A function reference: `progs_number << 24 | function_index`. -/
structure FuncRef where
  bits : Word
  deriving DecidableEq, Repr

namespace FuncRef

/-- `FuncRef::NULL`. -/
def null : FuncRef := ⟨0⟩

/-- `FuncRef::new`. -/
def new (progs index : Nat) : FuncRef :=
  ⟨BitVec.ofNat 32 progs <<< 24 ||| (BitVec.ofNat 32 index &&& 0x00FFFFFF)⟩

/-- The progs number. -/
def progs (f : FuncRef) : Nat := (f.bits >>> 24).toNat

/-- The function index within its progs. -/
def index (f : FuncRef) : Nat := (f.bits &&& 0x00FFFFFF).toNat

end FuncRef

/-- A resource with a configured limit. -/
inductive Resource where
  | entities
  | tempStrings
  | heap
  | fields
  | progsArea
  | progs
  | threads
  | stringBuffers
  | hashTables
  deriving DecidableEq, Repr

/-- What went wrong. -/
inductive ErrorKind where
  | badOpcode (op : Op)
  | jumpOutOfRange
  | nullFunction
  | invalidFunction (f : FuncRef)
  | builtinNotImplemented (number : Nat) (name : List Byte)
  | callDepth
  | localStack
  | reentrancy
  | tooManyArguments (n : Nat)
  | runaway
  | deadline
  | badPointerRead (p : Word)
  | badPointerWrite (p : Word)
  | nullPointerWrite
  | arrayIndex (i : Int)
  | boundCheck (value : Int) (low high : Nat)
  | pushedTooMuch
  | gAddress
  | stringCaseRange
  | noFreeEdicts
  | outOfMemory (r : Resource)
  | qcError (msg : List Byte)
  | builtin (msg : String)
  | host (msg : String)
  | poisoned
  deriving DecidableEq, Repr

/-- One frame of a QuakeC backtrace. -/
structure BacktraceFrame where
  function : FuncRef
  name : List Byte
  file : List Byte
  statement : Nat
  line : Option Nat
  deriving DecidableEq, Repr

/-- A QuakeC backtrace, innermost frame first. -/
abbrev Backtrace := List BacktraceFrame

/-- `Control::Abort`: the value `abort(ret)` returns from the nearest engine boundary. -/
abbrev AbortRet := Word × Word × Word

/-- An error raised while running QuakeC; `abort` is an error that only unwinds. -/
structure VmError where
  kind : ErrorKind
  backtrace : Backtrace
  abort : Option AbortRet
  deriving DecidableEq, Repr

namespace VmError

/-- `VmError::new`. -/
def new (kind : ErrorKind) : VmError := ⟨kind, [], none⟩

/-- `VmError::with_backtrace`. -/
def withBacktrace (e : VmError) (backtrace : Backtrace) : VmError :=
  if e.backtrace = [] then { e with backtrace := backtrace } else e

@[simp] lemma abort_withBacktrace (e : VmError) (b : Backtrace) :
    (e.withBacktrace b).abort = e.abort := by
  unfold withBacktrace
  split <;> rfl

end VmError

/-- A non-fatal problem; execution continued with a fallback value. -/
inductive WarningKind where
  | badEntity (e : Word)
  | badField (offset : Int)
  | readOnlyEntity (e : Word)
  | badString (r : Word)
  | builtin (msg : String)
  | suppressed (n : Nat)
  deriving DecidableEq, Repr

/-- A warning with the QuakeC backtrace where it happened. -/
structure Warning where
  kind : WarningKind
  backtrace : Backtrace
  deriving DecidableEq, Repr

end Qcvm

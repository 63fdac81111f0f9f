import Mathlib.Data.List.Sort
import Qcvm.Vm.Core

/-!
# Threads

`vm/threads.rs`: `sleep` and `fork`. A thread is a snapshot of the QuakeC call stack from the
nearest engine boundary up to the suspending builtin: the chain of activations, the local-stack
segment they use and the values of their locals. Resuming rebuilds the same frames and writes the
captured words back.
-/

namespace Qcvm

open Lib

/-- The activation a frame resumes. -/
def Frame.activation (f : Frame) : Activation :=
  { prnum := f.prnum
    func := f.func
    pc := f.resumePc
    pushed := f.pushed
    switchRef := f.switchRef
    switchKind := f.switchKind }

/-- The activation the registers hold. -/
def Exec.activation (x : Exec) : Activation :=
  { prnum := x.prnum
    func := x.func
    pc := x.pc
    pushed := x.pushed
    switchRef := x.switchRef
    switchKind := x.switchKind }

/-- The bytes `start..finish` of an array, if it has them. -/
def byteRange (data : Arr Byte) (start finish : Nat) : Option (List Byte) :=
  if start ≤ finish ∧ finish ≤ data.size then some (data.slice start (finish - start)) else none

/-- The key `f32::total_cmp` orders floats by. -/
def totalKey (f : Word) : Int := (f ^^^ (f.sshiftRight 31 >>> 1)).toInt

/-- The sum of the threads' data lengths. -/
def threadBytes (threads : List Thread) : Nat := (threads.map (·.data.length)).sum

namespace Core

variable (core : Core)

/-- `global_offset`: the byte offset of a global of progs `prnum`, by name. -/
def namedGlobal (prnum : Nat) (name : List Byte) : Option Nat := do
  let ps ← core.progs[prnum]?
  let d ← ps.program.globalDef name
  return ps.gbase + 4 * d.ofs

/-- The locals ranges of a chain, each function's once, with the bytes they hold now. -/
def captureLocals : List (Nat × Nat) → List Activation → Option (List (Nat × Nat) × List Byte)
  | _, [] => some ([], [])
  | seen, a :: chain =>
    if (a.prnum, a.func) ∈ seen then captureLocals seen chain
    else do
      let ps ← core.progs[a.prnum]?
      let f ← ps.program.functions[a.func]?
      let start := ps.gbase + 4 * f.parmStart
      let len := 4 * f.locals
      let bytes ← byteRange core.mem.s start (start + len)
      let (ranges, data) ← captureLocals (seen ++ [(a.prnum, a.func)]) chain
      return ((start, len) :: ranges, bytes ++ data)

/-- `self` or `other` as a thread remembers it: offset, entity and spawn serial. -/
def captureSelf (prnum : Nat) (name : List Byte) : Option (Nat × Word × Nat) :=
  (core.namedGlobal prnum name).map fun off =>
    let e := core.mem.g off
    (off, e, (core.mem.slots[e.toNat]?.map (·.serial)).getD 0)

/-- The activations above the frame at `depth`, root first, and the running one. -/
def chainAbove (depth : Nat) : List Activation :=
  (core.frames.reverse.drop (depth + 1)).map Frame.activation ++ [core.x.activation]

/-- `snapshot`: captures the running QuakeC thread; `none` if no QuakeC function is running. -/
def snapshot (wake : Word) (resume : Word × Word × Word) : Option Thread := do
  let root ← core.frames.reverse[core.entryDepth]?
  let chain := core.chainAbove core.entryDepth
  let top ← checkedAdd core.x.lsTop core.x.pushed
  let stack ← byteRange core.mem.s (core.mem.lsBase + 4 * root.localsAt)
    (core.mem.lsBase + 4 * top)
  let (locals, data) ← core.captureLocals [] chain
  let names := [ascii "self", ascii "other"]
  return {
    wake := wake
    chain := chain
    data := stack ++ data
    stackLen := stack.length
    locals := locals
    resume := resume
    selves := names.filterMap (core.captureSelf core.x.prnum) }

/-- `qc_time`: the value of the `time` global of the main progs. -/
def qcTime : Word := ((core.namedGlobal 0 (ascii "time")).map core.mem.g).getD 0

/-- `suspend`: suspends a copy of the running thread until `time` advances by `delay`; whether any
QuakeC was running. -/
def suspend (F : FloatOps) (delay : Word) (resume : Word × Word × Word) :
    Except ErrorKind Bool × Core :=
  if core.threads.length ≥ core.config.limits.threads then (.error (.outOfMemory .threads), core)
  else
    match core.snapshot (F.add core.qcTime delay) resume with
    | none => (.ok false, core)
    | some thread =>
      if thread.data.length + threadBytes core.threads > core.config.limits.threadBytes then
        (.error (.outOfMemory .threads), core)
      else (.ok true, { core with threads := core.threads ++ [thread] })

/-- The threads whose wake time has come, in wake order, and the core without them. -/
def takeDue (F : FloatOps) : List Thread × Core :=
  let due := fun (t : Thread) => F.le t.wake core.qcTime
  ((core.threads.filter due).insertionSort fun a b => totalKey a.wake ≤ totalKey b.wake,
    { core with threads := core.threads.filter fun t => !due t })

/-- Enters the activations of a chain, root first; the last one continues at its statement. -/
def enterChain : List Activation → Nat → Core → Except ErrorKind Unit × Core
  | [], resumePc, core => (.ok (), { core with x := { core.x with pc := resumePc } })
  | a :: chain, resumePc, core =>
    match core.enter a.prnum a.func resumePc with
    | (.error kind, core) => (.error kind, core)
    | (.ok (), core) =>
      let x := { core.x with
        pushed := a.pushed
        switchRef := a.switchRef
        switchKind := a.switchKind }
      enterChain chain a.pc { core with x := x }

/-- Writes the captured locals back. -/
def restoreCaptured (s : Arr Byte) : List (Nat × Nat) → List Byte → Arr Byte
  | [], _ => s
  | (start, len) :: ranges, data =>
    restoreCaptured (s.write start (data.take len)) ranges (data.drop len)

/-- Writes one of `self` and `other` back, 0 if the entity is gone. -/
def restoreSelf (m : Memory) : Nat × Word × Nat → Memory
  | (off, e, serial) =>
    let alive := (m.slots[e.toNat]?).any fun slot => slot.inUse && slot.serial == serial
    m.setG off (if alive then e else 0)

/-- Writes the words a thread captured back, once its chain is entered above `depth` frames. -/
def restoreThread (thread : Thread) (depth : Nat) : Core :=
  let root := ((core.frames.reverse[depth]?).map (·.localsAt)).getD 0
  let stack := min thread.stackLen thread.data.length
  let s := core.mem.s.write (core.mem.lsBase + 4 * root) (thread.data.take stack)
  let s := restoreCaptured s thread.locals (thread.data.drop stack)
  let (r0, r1, r2) := thread.resume
  let mem := { core.mem with s := s }.setGs (core.gbase + ofsReturn) [r0, r1, r2]
  { core with mem := thread.selves.foldl restoreSelf mem }

/-- `resume`, up to its run of the interpreter: rebuilds the frames and the words of a thread. -/
def resumeThread (thread : Thread) : Except ErrorKind Unit × Core :=
  let depth := core.frames.length
  match enterChain thread.chain core.x.pc core with
  | (.error kind, core) => (.error kind, core.unwind depth)
  | (.ok (), core) => (.ok (), core.restoreThread thread depth)

end Core

end Qcvm

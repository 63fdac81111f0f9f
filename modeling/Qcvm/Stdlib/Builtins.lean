import Qcvm.Stdlib.Charset
import Qcvm.Stdlib.Containers

/-!
# The container builtins

The builtins of `stdlib/hash.rs`, `stdlib/strbuf.rs` and `stdlib/tokenize.rs` that read or write
the containers. A builtin gets its decoded arguments and what the host answers it, and gives the
containers afterwards, the value it returns and the warnings it raises.
-/

namespace Qcvm.Stdlib

open Lib

/-- The arguments of a call, decoded. -/
structure Args where
  argc : Nat
  /-- `arg_str`. -/
  str : Nat → List Byte
  /-- `arg_int`: a float argument truncated. -/
  int : Nat → Word
  /-- A float argument less one, truncated, as buffer handles are read. -/
  prev : Nat → Word
  /-- Whether a float argument is not zero. -/
  nonzero : Nat → Bool
  /-- `arg_raw`. -/
  raw : Nat → Raw

/-- `f2i(opt_f32(vm, i, default))` for an integral default. -/
def Args.optInt (a : Args) (i : Nat) (default : Word) : Word := if i < a.argc then a.int i else default

/-- What a builtin returns. -/
inductive Ret where
  /-- The return value is left as it is. -/
  | unset
  /-- `ret_f32` of an integer. -/
  | float (n : Int)
  /-- `ret_str`: a new temp string. -/
  | string (s : List Byte)
  /-- `ret_raw`. -/
  | raw (w : Raw)
  /-- Nothing, after calling back with each key and value. -/
  | calls (list : List (List Byte × Value))
  /-- `Err(VmError::builtin(..))`. -/
  | error (msg : String)
  deriving DecidableEq

/-- The containers after a builtin, its return value and its warnings. -/
structure Outcome where
  state : Containers
  ret : Ret
  warnings : List String

/-- `ret_raw([0; 3])`. -/
def zero : Raw := (0, 0, 0)

/-- `ret_value`. -/
def retValue : Value → Ret
  | .text t => .string t
  | .words w => .raw w

/-- `soft_error`: a warning in developer mode, else an error. -/
def softError (cfg : Config) (c : Containers) (msg : String) : Outcome :=
  if cfg.developer then ⟨c, .raw zero, [msg]⟩ else ⟨c, .error msg, []⟩

def invalidTable : String := "hash: invalid hash table"

/-- The number `tokens` shows at an index, −1 when it is out of range. -/
def tokenNumber (tokens : Tokens) (index : Word) (f : Token → Nat) : Ret :=
  .float ((tokens.get index).elim (-1) fun t => (f t : Int))

namespace Containers

/-! ## Hash tables -/

/-- `table_arg`: the containers once the table of a handle was looked up, if it is valid. -/
def tableArg (c : Containers) (handle : Word) : Option Containers :=
  if (c.table handle).isSome then some (c.touch handle) else none

/-- The buckets of a table created with this size: a size below 4 means 64. -/
def bucketsFor (size : Word) : Nat := if size.toInt < 4 then 64 else min size.toNat maxBuckets

/-- `hash_createtab`. -/
def hashCreatetab (cfg : Config) (c : Containers) (a : Args) : Outcome :=
  let ty := a.optInt 1 evVector
  let ty := if ty = 0 then evVector else ty
  if cfg.hashTables ≤ Slots.live c.tables then ⟨c, .float 0, []⟩
  else
    let table := Table.new (bucketsFor (a.int 0)) ty
    let charged := c.charge cfg table.bytes
    if charged.1 then
      ⟨charged.2.addTable table, .float (Slots.free charged.2.tables + 1), []⟩
    else
      ⟨charged.2, .float 0, ["hash_createtab: out of memory for hash tables and string buffers"]⟩

/-- `hash_destroytab`. -/
def hashDestroytab (cfg : Config) (c : Containers) (a : Args) : Outcome :=
  match c.tableArg (a.int 0) with
  | none => softError cfg c invalidTable
  | some c =>
    match (tableSlot (a.int 0)).bind fun i => (Slots.get c.tables i).map fun t => (i, t) with
    | some (i, t) => ⟨{ c with tables := c.tables.set i none }.release t.bytes, .unset, []⟩
    | none => ⟨c, .unset, []⟩

/-- Whether `hash_add` replaces the newest entry of the key. -/
def replaces (flags : Word) : Bool := flags &&& hashAddFlag = 0 || flags &&& hashReplace != 0

/-- The type of a value stored with these flags. -/
def storedTy (t : Table) (flags : Word) : Word :=
  if flags &&& 0xFF = 0 then t.defaultTy else flags &&& 0xFF

/-- The entry that a new value for the key replaces. -/
def replaced (t : Table) (key : List Byte) (flags : Word) : Option (Nat × Nat) :=
  if replaces flags then (t.positions key).head? else none

/-- The value stored with this type: a copied string or the raw words. -/
def storedValue (ty : Word) (text : List Byte) (words : Raw) : Value :=
  if ty = evString then .text text else .words words

/-- `hash_add`. -/
def hashAdd (cfg : Config) (c : Containers) (a : Args) : Outcome :=
  match c.tableArg (a.int 0) with
  | none => softError cfg c invalidTable
  | some c =>
    if a.str 1 = [] then ⟨c, .unset, []⟩
    else
      let flags := a.optInt 3 0
      match c.table (a.int 0) with
      | none => ⟨c, .unset, []⟩
      | some t =>
        let ty := storedTy t flags
        let replaced := replaced t (a.str 1) flags
        let old := (replaced.bind t.entry).elim 0 Entry.bytes
        let value := storedValue ty (a.str 2) (a.raw 2)
        let charged := c.recharge cfg old (entryBytes (a.str 1) value)
        if charged.1 then
          match charged.2.table (a.int 0) with
          | none => ⟨charged.2, .unset, []⟩
          | some t =>
            ⟨charged.2.setTable (a.int 0)
              ((replaced.elim t t.remove).push ⟨a.str 1, ty, value⟩), .unset, []⟩
        else ⟨charged.2, .unset, ["hash_add: out of memory for hash tables and string buffers"]⟩

/-- The position `hash_get` reads: the `skip`th newest entry for the key of a required type. -/
def found (t : Table) (key : List Byte) (ty : Word) (skip : Nat) : Option Entry :=
  (((t.positions key).filter fun pos =>
    decide (ty = 0) || (t.entry pos).any fun e => decide (e.ty = ty))[skip]?).bind t.entry

/-- `hash_get`. -/
def hashGet (cfg : Config) (c : Containers) (a : Args) : Outcome :=
  let default := if 2 < a.argc then a.raw 2 else zero
  match c.tableArg (a.int 0) with
  | none =>
    if cfg.developer then ⟨c, .raw default, [invalidTable]⟩ else ⟨c, .error invalidTable, []⟩
  | some c =>
    match (c.table (a.int 0)).bind fun t =>
        found t (a.str 1) (a.optInt 3 0) ((index (a.optInt 4 0)).getD 0) with
    | some e => ⟨c, retValue e.value, []⟩
    | none => ⟨c, .raw default, []⟩

/-- `hash_delete`. -/
def hashDelete (cfg : Config) (c : Containers) (a : Args) : Outcome :=
  match c.tableArg (a.int 0) with
  | none => softError cfg c invalidTable
  | some c =>
    match c.table (a.int 0) with
    | none => ⟨c, .raw zero, []⟩
    | some t =>
      match (t.positions (a.str 1)).head?.bind fun pos => (t.entry pos).map fun e => (pos, e) with
      | some (pos, e) =>
        ⟨(c.setTable (a.int 0) (t.remove pos)).release e.bytes, retValue e.value, []⟩
      | none => ⟨c, .raw zero, []⟩

/-- `hash_getkey`. -/
def hashGetkey (cfg : Config) (c : Containers) (a : Args) : Outcome :=
  match c.tableArg (a.int 0) with
  | none => softError cfg c invalidTable
  | some c =>
    match (index (a.int 1)).bind fun i => (c.table (a.int 0)).bind fun t => t.all[i]? with
    | some e => ⟨c, .string e.key, []⟩
    | none => ⟨c, .raw zero, []⟩

/-- `hash_getcb`, up to the calls it makes. -/
def hashGetcb (cfg : Config) (c : Containers) (a : Args) : Outcome :=
  match c.tableArg (a.int 0) with
  | none => softError cfg c invalidTable
  | some c =>
    let entries := (c.table (a.int 0)).elim [] Table.all
    let snapshot := entries.filter fun e => decide (a.argc ≤ 2) || decide (a.str 2 = e.key)
    ⟨c, .calls (snapshot.map fun e => (e.key, e.value)), []⟩

/-! ## String buffers -/

/-- `buf_arg`: the buffer index an argument designates, if valid. -/
def bufArg (c : Containers) (a : Args) (i : Nat) : Option Nat :=
  (index (a.prev i)).filter fun b => (Slots.get c.bufs b).isSome

/-- The bytes of `"string"`. -/
def stringType : List Byte := [115, 116, 114, 105, 110, 103]

/-- `buf_create`. -/
def bufCreate (cfg : Config) (c : Containers) (a : Args) : Outcome :=
  let isString := a.argc = 0 ∨ (a.str 0).map asciiLower = stringType
  if ¬isString ∨ cfg.stringBuffers ≤ Slots.live c.bufs then ⟨c, .float (-1), []⟩
  else ⟨{ c with bufs := Slots.occupy c.bufs .empty }, .float (Slots.free c.bufs + 1), []⟩

/-- `buf_del`. -/
def bufDel (c : Containers) (a : Args) : Outcome :=
  match (c.bufArg a 0).bind fun i => (Slots.get c.bufs i).map fun buf => (i, buf) with
  | some (i, buf) => ⟨{ c with bufs := c.bufs.set i none }.release buf.bytes, .unset, []⟩
  | none => ⟨c, .unset, []⟩

/-- `buf_getsize`. -/
def bufGetsize (c : Containers) (a : Args) : Outcome :=
  let size := ((c.bufArg a 0).bind (Slots.get c.bufs)).elim 0 fun buf => buf.strings.length
  ⟨c, .float size, []⟩

/-- `buf_copy`. -/
def bufCopy (cfg : Config) (c : Containers) (a : Args) : Outcome :=
  match c.bufArg a 0, c.bufArg a 1 with
  | some from', some to' =>
    if from' = to' then ⟨c, .unset, []⟩
    else
      match Slots.get c.bufs from' with
      | some copy =>
        let replaced := c.replace cfg to' copy
        ⟨replaced.2.1, .unset, replaced.2.2⟩
      | none => ⟨c, .unset, []⟩
  | _, _ => ⟨c, .unset, []⟩

/-- The order of `buf_sort`: by the first bytes, backward or not. -/
def sortLe (limit : Option Nat) (backward : Bool) (a b : List Byte) : Bool :=
  let first (s : List Byte) : List Byte := limit.elim s fun n => s.take n
  if backward then decide (first b ≤ first a) else decide (first a ≤ first b)

/-- `buf_sort`. -/
def bufSort (cfg : Config) (c : Containers) (a : Args) : Outcome :=
  match c.bufArg a 0 with
  | none => ⟨c, .unset, []⟩
  | some i =>
    let limit := if (a.int 1).toInt ≤ 0 then none else some (a.int 1).toNat
    match Slots.get c.bufs i with
    | none => ⟨c, .unset, []⟩
    | some buf =>
      -- the entries are taken out before they are charged again
      let taken := c.setBuf i { buf with strings := [] }
      let strings := (buf.strings.filterMap id).mergeSort (sortLe limit (a.nonzero 2))
      let replaced := taken.replace cfg i (.fromStrings (strings.map some))
      ⟨replaced.2.1, .unset, replaced.2.2⟩

/-- `bufstr_get`. -/
def bufstrGet (c : Containers) (a : Args) : Outcome :=
  match (c.bufArg a 0).bind fun b => (index (a.int 1)).bind fun i =>
      (Slots.get c.bufs b).bind fun buf => Slots.get buf.strings i with
  | some s => ⟨c, .string s, []⟩
  | none => ⟨c, .raw zero, []⟩

/-- `bufstr_set`. -/
def bufstrSet (cfg : Config) (c : Containers) (a : Args) : Outcome :=
  match c.bufArg a 0, index (a.int 1) with
  | some b, some i =>
    if maxSetIndex < i ∨ cfg.stringBufferEntries ≤ i then
      ⟨c, .unset, ["bufstr_set: index outside sanity range"]⟩
    else
      let stored := c.store cfg b i (a.str 2)
      ⟨stored.2.1, .unset, stored.2.2⟩
  | _, _ => ⟨c, .unset, []⟩

/-- `bufstr_add`. -/
def bufstrAdd (cfg : Config) (c : Containers) (a : Args) : Outcome :=
  match c.bufArg a 0 with
  | none => ⟨c, .float 0, []⟩
  | some b =>
    match Slots.get c.bufs b with
    | none => ⟨c, .unset, []⟩
    | some buf =>
      let i := if a.int 2 ≠ 0 then buf.strings.length else Slots.free buf.strings
      if cfg.stringBufferEntries ≤ i then
        ⟨c, .float (-1), ["bufstr_add: string buffer is full"]⟩
      else
        let stored := c.store cfg b i (a.str 1)
        ⟨stored.2.1, .float (if stored.1 then i else -1), stored.2.2⟩

/-- `bufstr_free`. -/
def bufstrFree (c : Containers) (a : Args) : Outcome :=
  match c.bufArg a 0, index (a.int 1) with
  | some b, some i =>
    match Slots.get c.bufs b with
    | some buf =>
      ⟨(c.setBuf b (buf.free i)).release (buf.freed i), .unset, []⟩
    | none => ⟨c, .unset, []⟩
  | _, _ => ⟨c, .unset, []⟩

/-- `buf_cvarlist`, with the names the host reports. -/
def bufCvarlist (cfg : Config) (c : Containers) (a : Args) (names : List (List Byte)) : Outcome :=
  match c.bufArg a 0 with
  | none => ⟨c, .unset, []⟩
  | some b =>
    let names := (names.mergeSort fun x y => decide (x ≤ y)).take cfg.stringBufferEntries
    let replaced := c.replace cfg b (.fromStrings (names.map some))
    ⟨replaced.2.1, .unset, replaced.2.2⟩

/-- A line without its carriage return. -/
def stripReturn (line : List Byte) : List Byte :=
  if line.getLast? = some carriageReturn then line.dropLast else line

/-- `file_lines`: the lines of a file, each up to its first NUL. -/
def fileLines (data : List Byte) : List (List Byte) :=
  if _h : data = [] then []
  else
    let line := data.takeWhile (· != newline)
    let terminated := line.length < data.length
    let shown := if terminated then stripReturn line else line
    shown.takeWhile (· != 0) :: fileLines (data.drop (line.length + 1))
termination_by data.length
decreasing_by
  have long := List.length_pos_iff.mpr _h
  rw [List.length_drop]
  omega

/-- The lines of a file go to the end of a buffer, until one is refused. -/
def storeLines (cfg : Config) (b : Nat) : Containers → List (List Byte) → Containers × List String
  | c, [] => (c, [])
  | c, line :: lines =>
    match Slots.get c.bufs b with
    | none => (c, [])
    | some buf =>
      if cfg.stringBufferEntries ≤ buf.strings.length then (c, [])
      else
        let stored := c.store cfg b buf.strings.length line
        if stored.1 then storeLines cfg b stored.2.1 lines else (stored.2.1, stored.2.2)

/-- `buf_loadfile`, with the contents the host reads. -/
def bufLoadfile (cfg : Config) (c : Containers) (a : Args) (data : Option (List Byte)) : Outcome :=
  match c.bufArg a 1, data with
  | some b, some data =>
    let stored := storeLines cfg b c (fileLines data)
    ⟨stored.1, .float 1, stored.2⟩
  | _, _ => ⟨c, .float 0, []⟩

/-! ## Tokens -/

/-- The token list of a tokenizer takes the place of the current one. -/
def keepTokens (cfg : Config) (c : Containers) (split : Budget → List Token × Budget) : Outcome :=
  let result := split (c.budget cfg)
  let kept := c.setTokens cfg result.1
  ⟨kept, .float kept.tokens.list.length,
    if result.2.exceeded then
      ["tokenize: out of memory for the token list; the rest of the string is ignored"]
    else []⟩

/-- `tokenize`. -/
def tokenize (cfg : Config) (c : Containers) (a : Args) : Outcome :=
  c.keepTokens cfg (split (a.str 0) true)

/-- `tokenize_console`. -/
def tokenizeConsole (cfg : Config) (c : Containers) (a : Args) : Outcome :=
  c.keepTokens cfg (split (a.str 0) false)

/-- The separators of `tokenizebyseparator`: arguments 1 to 7. -/
def separators (a : Args) : List (List Byte) :=
  (List.range (min a.argc 8 - 1)).map fun i => a.str (i + 1)

/-- `tokenizebyseparator`. -/
def tokenizebyseparator (cfg : Config) (c : Containers) (a : Args) : Outcome :=
  c.keepTokens cfg (splitBy (a.str 0) (separators a))

/-- `argv`. -/
def argv (c : Containers) (a : Args) : Outcome :=
  match c.tokens.get (a.int 0) with
  | some t => ⟨c, .string t.text, []⟩
  | none => ⟨c, .raw zero, []⟩

/-- `argc`. -/
def argc (c : Containers) (_ : Args) : Outcome := ⟨c, .float c.tokens.list.length, []⟩

/-- `argv_start_index`. -/
def argvStartIndex (c : Containers) (a : Args) : Outcome :=
  ⟨c, tokenNumber c.tokens (a.int 0) Token.start, []⟩

/-- `argv_end_index`. -/
def argvEndIndex (c : Containers) (a : Args) : Outcome :=
  ⟨c, tokenNumber c.tokens (a.int 0) Token.stop, []⟩

end Containers

/-! ## Runs -/

/-- The builtins that read or write the containers; the last two of the buffer builtins come with
what the host answers. -/
inductive Builtin where
  | hashCreatetab | hashDestroytab | hashAdd | hashGet | hashDelete | hashGetkey | hashGetcb
  | bufCreate | bufDel | bufGetsize | bufCopy | bufSort
  | bufstrGet | bufstrSet | bufstrAdd | bufstrFree
  | bufCvarlist (names : List (List Byte))
  | bufLoadfile (data : Option (List Byte))
  | tokenize | tokenizeConsole | tokenizebyseparator
  | argv | argc | argvStartIndex | argvEndIndex

/-- One call of a builtin. -/
def Containers.call (cfg : Config) (c : Containers) (b : Builtin) (a : Args) : Outcome :=
  match b with
  | .hashCreatetab => c.hashCreatetab cfg a
  | .hashDestroytab => c.hashDestroytab cfg a
  | .hashAdd => c.hashAdd cfg a
  | .hashGet => c.hashGet cfg a
  | .hashDelete => c.hashDelete cfg a
  | .hashGetkey => c.hashGetkey cfg a
  | .hashGetcb => c.hashGetcb cfg a
  | .bufCreate => c.bufCreate cfg a
  | .bufDel => c.bufDel a
  | .bufGetsize => c.bufGetsize a
  | .bufCopy => c.bufCopy cfg a
  | .bufSort => c.bufSort cfg a
  | .bufstrGet => c.bufstrGet a
  | .bufstrSet => c.bufstrSet cfg a
  | .bufstrAdd => c.bufstrAdd cfg a
  | .bufstrFree => c.bufstrFree a
  | .bufCvarlist names => c.bufCvarlist cfg a names
  | .bufLoadfile data => c.bufLoadfile cfg a data
  | .tokenize => c.tokenize cfg a
  | .tokenizeConsole => c.tokenizeConsole cfg a
  | .tokenizebyseparator => c.tokenizebyseparator cfg a
  | .argv => c.argv a
  | .argc => c.argc a
  | .argvStartIndex => c.argvStartIndex a
  | .argvEndIndex => c.argvEndIndex a

/-- The containers after a sequence of calls. -/
def Containers.run (cfg : Config) (c : Containers) (calls : List (Builtin × Args)) : Containers :=
  calls.foldl (fun c call => (c.call cfg call.1 call.2).state) c

end Qcvm.Stdlib

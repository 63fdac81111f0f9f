import Qcvm.Lib.Slots
import Qcvm.Stdlib.Tokenize

/-!
# Hash tables, string buffers and the token list

The containers of the standard library (`stdlib/hash.rs`, `stdlib/strbuf.rs`, `stdlib/tokenize.rs`)
and the counter they are charged to (`stdlib/util.rs`). Sizes are those of a 64-bit target. A
container's capacity is not modelled: it is taken to be its length. As in the tokenizer, sums of
sizes are plain sums, while `saturating_sub` is the truncated subtraction of natural numbers.
-/

namespace Qcvm.Stdlib

open Lib

/-- What the containers read of the configuration. -/
structure Config where
  stringBuffers : Nat
  stringBufferEntries : Nat
  hashTables : Nat
  containerBytes : Nat
  developer : Bool

/-! ## String buffers -/

/-- `size_of::<Option<Box<[u8]>>>()`, the storage charged per entry slot. -/
def slotBytes : Nat := 16

/-- `bufstr_set` refuses indices above this. -/
def maxSetIndex : Nat := 1048576

/-- One string buffer: its length is the buffer's size and its holes are unset entries. -/
structure StrBuf where
  strings : List (Option (List Byte))
  /-- Storage the buffer holds: its slots and strings. -/
  bytes : Nat
  deriving DecidableEq

namespace StrBuf

/-- The storage of these entries. -/
def cost (strings : List (Option (List Byte))) : Nat :=
  strings.length * slotBytes + Slots.weight List.length strings

/-- `StrBuf::from_strings`. -/
def fromStrings (strings : List (Option (List Byte))) : StrBuf := ⟨strings, cost strings⟩

/-- `StrBuf::default`. -/
def empty : StrBuf := ⟨[], 0⟩

/-- The storage the buffer would hold after setting entry `i` to `len` bytes. -/
def bytesAfterSet (buf : StrBuf) (i len : Nat) : Nat :=
  buf.bytes + (i + 1 - buf.strings.length) * slotBytes + len -
    (Slots.get buf.strings i).elim 0 List.length

/-- The entries of a buffer grown to hold entry `i`. -/
def grown (buf : StrBuf) (i : Nat) : List (Option (List Byte)) :=
  buf.strings ++ List.replicate (i + 1 - buf.strings.length) none

/-- `StrBuf::set`. -/
def set (buf : StrBuf) (i : Nat) (s : List Byte) : StrBuf :=
  ⟨(buf.grown i).set i (some s), buf.bytesAfterSet i s.length⟩

/-- The bytes that freeing entry `i` gives back. -/
def freed (buf : StrBuf) (i : Nat) : Nat := (Slots.get buf.strings i).elim 0 List.length

/-- `StrBuf::free`: entry `i` becomes a hole. -/
def free (buf : StrBuf) (i : Nat) : StrBuf := ⟨buf.strings.set i none, buf.bytes - buf.freed i⟩

end StrBuf

/-! ## Hash tables -/

/-- Three raw words. -/
abbrev Raw := Word × Word × Word

/-- A stored value: a copied string or three raw words. -/
inductive Value where
  | text (t : List Byte)
  | words (w : Raw)
  deriving DecidableEq

/-- One entry of a bucket. -/
structure Entry where
  key : List Byte
  ty : Word
  value : Value
  deriving DecidableEq

/-- `EV_STRING`. -/
def evString : Word := 1

/-- `EV_VECTOR`, the default value type of tables created without one. -/
def evVector : Word := 3

/-- `hash_add` flag: replace the newest existing entry for the key. -/
def hashReplace : Word := 256

/-- `hash_add` flag: add another entry for the key. -/
def hashAddFlag : Word := 512

/-- Buckets of the `gamestate` table. -/
def gamestateBuckets : Nat := 256

/-- Upper bound on buckets per table. -/
def maxBuckets : Nat := 65536

/-- `size_of::<Vec<Entry>>()`, the storage charged per bucket. -/
def bucketBytes : Nat := 24

/-- `size_of::<Entry>()`. -/
def sizeOfEntry : Nat := 48

/-- Storage charged for an entry: its key and text, and four entry slots of its bucket. -/
def entryBytes (key : List Byte) (value : Value) : Nat :=
  let text := match value with
    | .text t => t.length
    | .words _ => 0
  sizeOfEntry * 4 + key.length + text

/-- Storage charged for the entry. -/
def Entry.bytes (e : Entry) : Nat := entryBytes e.key e.value

/-- One hash table. -/
structure Table where
  defaultTy : Word
  /-- Buckets, each with its newest entry last. -/
  buckets : List (List Entry)
  /-- Storage the table holds: its buckets and entries. -/
  bytes : Nat
  deriving DecidableEq

namespace Table

/-- `Table::new`. -/
def new (buckets : Nat) (defaultTy : Word) : Table :=
  ⟨defaultTy, List.replicate (max buckets 1) [], max buckets 1 * bucketBytes⟩

/-- FNV-1a. -/
def hash (key : List Byte) : Word :=
  key.foldl (fun h b => (h ^^^ b.setWidth 32) * 0x01000193) 0x811C9DC5

/-- The bucket of a key. -/
def bucketOf (t : Table) (key : List Byte) : Nat :=
  if t.buckets.length = 0 then 0 else (hash key).toNat % t.buckets.length

/-- The entries of the bucket of `key`, oldest first. -/
def bucket (t : Table) (key : List Byte) : List Entry := t.buckets[t.bucketOf key]?.getD []

/-- `Table::matches`: the entries for `key`, newest first, as bucket and index. -/
def positions (t : Table) (key : List Byte) : List (Nat × Nat) :=
  ((t.bucket key).zipIdx.reverse.filter fun e => e.1.key = key).map fun e => (t.bucketOf key, e.2)

/-- `Table::entry`. -/
def entry (t : Table) (pos : Nat × Nat) : Option Entry := t.buckets[pos.1]?.bind fun b => b[pos.2]?

/-- `Table::remove`, without the shrinking of the bucket. -/
def remove (t : Table) (pos : Nat × Nat) : Table :=
  match t.entry pos with
  | some e =>
    { t with buckets := t.buckets.modify pos.1 fun b => b.eraseIdx pos.2, bytes := t.bytes - e.bytes }
  | none => t

/-- The new entry goes to the end of its key's bucket. -/
def push (t : Table) (e : Entry) : Table :=
  if t.bucketOf e.key < t.buckets.length then
    { t with buckets := t.buckets.modify (t.bucketOf e.key) (· ++ [e]), bytes := t.bytes + e.bytes }
  else t

/-- Every entry in enumeration order: bucket by bucket, newest first within a bucket. -/
def all (t : Table) : List Entry := t.buckets.flatMap List.reverse

end Table

/-! ## The containers of a VM -/

/-- The current token list and the storage charged for it. -/
structure Tokens where
  list : List Token
  bytes : Nat

/-- The storage a finished (shrunk) token list holds. -/
def listBytes (list : List Token) : Nat :=
  list.length * tokenBytes + (list.map fun t => t.text.length).sum

/-- The token at a QuakeC index: negative indices count from the end. -/
def Tokens.get (tokens : Tokens) (index : Word) : Option Token :=
  let n : Word := BitVec.ofNat 32 (min tokens.list.length 2147483647)
  let i := if index.toInt < 0 then index + n else index
  if i.toInt < 0 then none else tokens.list[i.toNat]?

/-- The containers and the bytes charged for them. -/
structure Containers where
  /-- Buffers by handle − 1. -/
  bufs : List (Option StrBuf)
  /-- Tables by handle − 1. -/
  tables : List (Option Table)
  /-- Handle 0, created on first use. -/
  gamestate : Option Table
  tokens : Tokens
  containerBytes : Nat

namespace Containers

/-- A VM's containers when it starts. -/
def fresh : Containers := ⟨[], [], none, ⟨[], 0⟩, 0⟩

/-- The `gamestate` table, created on first use. -/
def theGamestate (c : Containers) : Table :=
  c.gamestate.getD (.new gamestateBuckets evString)

/-- `usize::try_from` of an `i32`. -/
def index (w : Word) : Option Nat := if w.toInt < 0 then none else some w.toNat

/-- The slot of a table handle other than 0. -/
def tableSlot (handle : Word) : Option Nat :=
  if handle.toInt < 1 then none else some (handle.toNat - 1)

/-- `Tables::get_mut`: the table of a handle. -/
def table (c : Containers) (handle : Word) : Option Table :=
  if handle = 0 then some c.theGamestate
  else (tableSlot handle).bind (Slots.get c.tables)

/-- What looking a table up changes: the `gamestate` table is there afterwards. -/
def touch (c : Containers) (handle : Word) : Containers :=
  if handle = 0 then { c with gamestate := some c.theGamestate } else c

/-- Writes the table of a handle back. -/
def setTable (c : Containers) (handle : Word) (t : Table) : Containers :=
  if handle = 0 then { c with gamestate := some t }
  else
    match tableSlot handle with
    | some i => { c with tables := c.tables.set i (some t) }
    | none => c

/-- A new table takes a free slot. -/
def addTable (c : Containers) (t : Table) : Containers :=
  { c with tables := Slots.occupy c.tables t }

/-- Writes buffer `b` back. -/
def setBuf (c : Containers) (b : Nat) (buf : StrBuf) : Containers :=
  { c with bufs := c.bufs.set b (some buf) }

/-- `charge`: refused, changing nothing, if it would exceed the limit. -/
def charge (cfg : Config) (c : Containers) (n : Nat) : Bool × Containers :=
  if cfg.containerBytes < c.containerBytes + n then (false, c)
  else (true, { c with containerBytes := c.containerBytes + n })

/-- `release`. -/
def release (c : Containers) (n : Nat) : Containers :=
  { c with containerBytes := c.containerBytes - n }

/-- `recharge`: charges or releases the difference. -/
def recharge (cfg : Config) (c : Containers) (old new : Nat) : Bool × Containers :=
  if old ≤ new then c.charge cfg (new - old) else (true, c.release (old - new))

/-- What a refused charge for a buffer warns of. -/
def buffersFull : String := "string buffers: out of memory for hash tables and string buffers"

/-- `store`: charges for and performs the setting of entry `i` of buffer `b`. -/
def store (cfg : Config) (c : Containers) (b i : Nat) (s : List Byte) :
    Bool × Containers × List String :=
  match Slots.get c.bufs b with
  | none => (false, c, [])
  | some buf =>
    let charged := c.recharge cfg buf.bytes (buf.bytesAfterSet i s.length)
    if charged.1 then (true, charged.2.setBuf b (buf.set i s), [])
    else (false, charged.2, [buffersFull])

/-- `replace`: replaces the contents of buffer `b`, charging the difference. -/
def replace (cfg : Config) (c : Containers) (b : Nat) (contents : StrBuf) :
    Bool × Containers × List String :=
  match Slots.get c.bufs b with
  | none => (false, c, [])
  | some buf =>
    let charged := c.recharge cfg buf.bytes contents.bytes
    if charged.1 then (true, charged.2.setBuf b contents, [])
    else (false, charged.2, [buffersFull])

/-- The storage a new token list may take: what is left once the current list is dropped. -/
def budget (cfg : Config) (c : Containers) : Budget :=
  .new (cfg.containerBytes - (c.containerBytes - c.tokens.bytes))

/-- `set_tokens`: the list that is kept and its charge. -/
def setTokens (cfg : Config) (c : Containers) (list : List Token) : Containers :=
  let charged := (c.release c.tokens.bytes).charge cfg (listBytes list)
  let kept := if charged.1 then list else []
  { charged.2 with tokens := ⟨kept, if kept.length = 0 then 0 else listBytes list⟩ }

end Containers

end Qcvm.Stdlib

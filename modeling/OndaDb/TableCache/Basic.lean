import OndaDb.Error
import OndaDb.Lib.Keyed

-- The bounded cache of open table readers.
namespace OndaDb.TableCache

abbrev Key := UInt64 × UInt64

structure Entry (R : Type) where
  key : Key
  reader : R
  referenced : Bool
  bytes : Nat

abbrev SHARDS : Nat := 16

structure Core (R : Type) where
  shards : Fin SHARDS → List (Entry R)
  openCount : Nat
  maxOpen : Nat
  openBytes : Nat
  maxBytes : Nat

-- The bytes of a reader, and the order in which a shard's map is walked.
variable {R : Type} (readerBytes : R → Nat) (order : List (Entry R) → List (Entry R))

def withByteBudget (maxOpen maxBytes : Nat) : Core R where
  shards := fun _ => []
  openCount := 0
  maxOpen := max maxOpen 1
  openBytes := 0
  maxBytes := maxBytes

def shardIndex (k : Key) : Fin SHARDS :=
  ⟨(k.2 + k.1 * 7).toNat % SHARDS, Nat.mod_lt _ (by decide)⟩

namespace Core

variable (c : Core R)

def setShard (i : Fin SHARDS) (entries : List (Entry R)) : Core R :=
  { c with shards := Function.update c.shards i entries }

def overBound : Bool :=
  c.openCount > c.maxOpen || (c.maxBytes > 0 && c.openCount > 1 && c.openBytes > c.maxBytes)

-- The first reader that was not used since the last visit, or else the first one, and what stays.
def visit (entries : List (Entry R)) : Option (Entry R × List (Entry R)) :=
  let spared := (entries.takeWhile (·.referenced)).map ({ · with referenced := false })
  match entries.dropWhile (·.referenced), spared with
  | victim :: rest, _ => some (victim, spared ++ rest)
  | [], victim :: rest => some (victim, rest)
  | [], [] => none

def evictOneShard (i : Fin SHARDS) : Option (Core R) :=
  (visit (order (c.shards i))).map fun v => { c.setShard i v.2 with
    openBytes := c.openBytes - v.1.bytes
    openCount := c.openCount - 1 }

def maxSpin : Nat := 4097

def evictRounds (start : Fin SHARDS) : Nat → Core R → Core R
  | 0, c => c
  | rounds + 1, c =>
    if c.overBound then
      match (List.finRange SHARDS).findSome? fun off => c.evictOneShard order (start + off) with
      | some c' => evictRounds start rounds c'
      | none => c
    else c

def evictToBound (start : Fin SHARDS) : Core R :=
  evictRounds order start maxSpin c

def setMaxOpen (maxOpen : Nat) : Core R :=
  evictToBound order { c with maxOpen := max maxOpen 1 } 0

def setMaxBytes (maxBytes : Nat) : Core R :=
  evictToBound order { c with maxBytes := maxBytes } 0

def touch (k : Key) : Core R :=
  c.setShard (shardIndex k) ((c.shards (shardIndex k)).map fun e =>
    if e.key = k then { e with referenced := true } else e)

def insert (k : Key) (reader : R) : Core R :=
  { c.setShard (shardIndex k) (⟨k, reader, true, readerBytes reader⟩ :: c.shards (shardIndex k)) with
    openCount := c.openCount + 1
    openBytes := c.openBytes + readerBytes reader }

-- `opened` is what opening the table gives; it is looked at where the reader is not cached.
def get (k : Key) (opened : Except OndaError R) : Except OndaError R × Core R :=
  match Keyed.find Entry.key k (c.shards (shardIndex k)) with
  | some e => (.ok e.reader, c.touch k)
  | none =>
    match opened with
    | .error e => (.error e, c)
    | .ok reader => (.ok reader, (c.insert readerBytes k reader).evictToBound order (shardIndex k))

def close (k : Key) : Option R × Core R :=
  match Keyed.find Entry.key k (c.shards (shardIndex k)) with
  | some e => (some e.reader, { c.setShard (shardIndex k) (Keyed.drop Entry.key k (c.shards (shardIndex k))) with
      openBytes := c.openBytes - e.bytes
      openCount := c.openCount - 1 })
  | none => (none, c)

def doomed (p : Key → Bool) : List (Entry R) :=
  (List.finRange SHARDS).flatMap fun i => (c.shards i).filter (p ·.key)

def purge (p : Key → Bool) : List R × Core R :=
  ((c.doomed p).map Entry.reader, { c with
    shards := fun i => (c.shards i).filter (!p ·.key)
    openBytes := c.openBytes - ((c.doomed p).map Entry.bytes).sum
    openCount := c.openCount - (c.doomed p).length })

end Core

inductive Call (R : Type)
  | get (k : Key) (opened : Except OndaError R)
  | close (k : Key)
  | purge (p : Key → Bool)
  | setMaxOpen (maxOpen : Nat)
  | setMaxBytes (maxBytes : Nat)

def Core.exec (c : Core R) : Call R → Core R
  | .get k opened => (c.get readerBytes order k opened).2
  | .close k => (c.close k).2
  | .purge p => (c.purge p).2
  | .setMaxOpen maxOpen => c.setMaxOpen order maxOpen
  | .setMaxBytes maxBytes => c.setMaxBytes order maxBytes

end OndaDb.TableCache

import OndaDb.Catalog.Codec
import OndaDb.Lib.Chunks
import OndaDb.Wal.Record

-- Data blocks whose entries leave out the start of their key that they share with the entry before them.
namespace OndaDb.Delta

open Encoding Catalog Wal

inductive Value
  | inline (bytes : Bytes)
  | vlog (length offset : UInt64)
  deriving DecidableEq, Repr

structure Entry where
  key : Bytes
  value : Value
  seq : UInt64
  ttl : Int64
  kind : Kind
  deriving DecidableEq, Repr

def Value.isVlog : Value → Bool
  | inline _ => false
  | vlog _ _ => true

def Value.length : Value → Nat
  | inline v => List.length v
  | vlog n _ => n.toNat

def Value.append : Value → Bytes
  | inline v => v
  | vlog _ o => putU64 o.toNat

-- The value of a tombstone is not separated.
def Entry.Placed (e : Entry) : Prop :=
  e.kind.tombstone → ¬e.value.isVlog

instance (e : Entry) : Decidable e.Placed :=
  inferInstanceAs (Decidable (_ → _))

def sharedPrefixLen : Bytes → Bytes → Nat
  | a :: as, b :: bs => if a = b then sharedPrefixLen as bs + 1 else 0
  | _,       _ => 0

def modifiers (e : Entry) : Nat :=
  (Flags.normalized e.kind.tombstone (e.kind = .singleDelete) (e.ttl ≠ 0) e.value.isVlog).toNat &&& Modifiers.known

def encodeHead (shared : Nat) (e : Entry) : Bytes :=
  appendUvarint (RecordKind.code (.point e.kind)) ++ (appendUvarint (modifiers e) ++ (appendUvarint shared ++
    (appendUvarint (e.key.length - shared) ++ (appendUvarint e.value.length ++ (appendUvarint e.seq.toNat ++
    if e.ttl ≠ 0 then appendVarint e.ttl.toInt else [])))))

def encodeEntryDelta (prevKey : Bytes) (e : Entry) : Bytes :=
  let shared := sharedPrefixLen prevKey e.key
  encodeHead shared e ++ (e.key.drop shared ++ e.value.append)

-- The block under construction. Each entry whose number is a multiple of the interval is an anchor, which
-- shares nothing.
structure Builder where
  block : Bytes
  restarts : List Nat
  prevKey : Bytes
  entries : Nat
  deriving DecidableEq, Repr

namespace Builder

def new : Builder where
  block := []
  restarts := []
  prevKey := []
  entries := 0

def add (interval : Nat) (b : Builder) (e : Entry) : Builder :=
  let anchor := b.entries % interval = 0
  {
    restarts := if anchor then b.restarts ++ [b.block.length] else b.restarts
    block := b.block ++ encodeEntryDelta (if anchor then [] else b.prevKey) e
    prevKey := e.key
    entries := b.entries + 1
  }

-- The offsets and their number, cut to 32 bits.
def finish (b : Builder) : Bytes :=
  b.block ++ (b.restarts.flatMap putU32 ++ putU32 b.restarts.length)

end Builder

def corrupt : OndaError :=
  .corruption "sst: malformed delta entry"

def errs : Errs :=
  ⟨corrupt, corrupt, corrupt, corrupt⟩

def checkPointKind (kind : Nat) : Except OndaError Kind := do
  match ← RecordKind.check kind with
  | .point kind => .ok kind
  | .rangeDelete => .error (.corruption "sst: range-delete kind in the point-entry stream")
  | _ => .error (.corruption s!"sst: transaction-control kind {kind} in the point-entry stream")

structure Head where
  kind : Kind
  mods : UInt64
  shared : UInt64
  suffixLen : UInt64
  valLen : UInt64
  seq : UInt64
  ttl : Int64
  deriving DecidableEq, Repr

def flagsOf (kind : Kind) (mods : UInt64) : UInt8 :=
  mods.toUInt8 ||| (if kind.tombstone then Flags.tombstone else 0) |||
    (if kind = .singleDelete then Flags.singleDelete else 0)

def lift (x : Except OndaError α) : Decoder α := fun b => do
  return (← x, b)

def readTtl (kind : Kind) (mods : UInt64) : Decoder Int64 :=
  if flagsOf kind mods &&& Flags.hasTtl ≠ 0 then signed errs else pure 0

def readHead : Decoder Head := do
  let kind ← uvar errs
  let kind ← lift (checkPointKind kind.toNat)
  let mods ← uvar errs
  lift (Modifiers.check mods.toNat)
  lift (Flags.check (flagsOf kind mods))
  let shared ← uvar errs
  let suffixLen ← uvar errs
  let valLen ← uvar errs
  let seq ← uvar errs
  let ttl ← readTtl kind mods
  return ⟨kind, mods, shared, suffixLen, valLen, seq, ttl⟩

def readValue (h : Head) : Decoder Value :=
  if flagsOf h.kind h.mods &&& Flags.hasVlog ≠ 0
  then .vlog h.valLen <$> u64le errs
  else .inline <$> take errs h.valLen.toNat

structure Stored where
  head : Head
  keyStart : Nat
  suffix : Bytes
  value : Value
  deriving DecidableEq, Repr

def counted (r : Decoder α) : Decoder (Nat × α) := fun b => do
  let (a, rest) ← r b
  return ((b.length - rest.length, a), rest)

def decodeDeltaHeader : Decoder Stored := do
  let (keyStart, head) ← counted readHead
  let suffix ← take errs head.suffixLen.toNat
  let value ← readValue head
  return ⟨head, keyStart, suffix, value⟩

def decodeDeltaAnchor : Decoder Stored := do
  let s ← decodeDeltaHeader
  if s.head.shared ≠ 0 then throw (.corruption "sst: restart anchor shares a key prefix") else return s

def Stored.entry (s : Stored) (key : Bytes) : Entry where
  key := key.take s.head.shared.toNat ++ s.suffix
  value := s.value
  seq := s.head.seq
  ttl := s.head.ttl
  kind := s.head.kind

def precedes : Bytes → Bytes → Bool
  | _,       [] => false
  | [],      _ :: _ => true
  | a :: as, b :: bs => decide (a < b) || (a = b && precedes as bs)

-- `key` is the key of the entry before. Keys are only compared where their order is that of their bytes.
def decodeEntryDelta (bytewise : Bool) (key : Bytes) : Decoder Stored := do
  let s ← decodeDeltaHeader
  if s.head.shared.toNat > key.length then
    throw (.corruption "sst: delta shared_len exceeds the previous key")
  else if bytewise && precedes s.suffix (key.drop s.head.shared.toNat) then
    throw (.corruption "sst: delta block keys are not in order")
  else return s

abbrev Slot := Stored × Entry

-- The entries of a run, up to where `left` bytes are left; every entry takes a byte or more, so `fuel` is
-- the number of bytes.
def walkRun (bytewise : Bool) (left : Nat) : Nat → Bytes → Bytes → Except OndaError (List Slot)
  | fuel, key, b =>
    if b.length < left then .error (.corruption "sst: delta entry crosses a restart or block boundary")
    else if b.length = left then .ok []
    else match fuel with
    | 0 => .error corrupt
    | fuel + 1 => do
      let (s, b) ← decodeEntryDelta bytewise key b
      let e := s.entry key
      let slots ← walkRun bytewise left fuel e.key b
      return (s, e) :: slots

def materialize (bytewise : Bool) (entries : Bytes) (start stop : Nat) : Except OndaError (List Slot) := do
  if start < stop then let _ ← decodeDeltaAnchor (entries.drop start)
  walkRun bytewise (entries.length - stop) (entries.length - start) [] (entries.drop start)

end OndaDb.Delta

import OndaDb.Encoding
import OndaDb.Lib.Keyed

-- The block cache: shards of entries, each with a clock ring.
namespace OndaDb.BlockCache

inductive BlockDomain
  | klog
  | vlog
  deriving DecidableEq

def BlockDomain.salt : BlockDomain → UInt64
  | klog => 0
  | vlog => 0x9E3779B97F4A7C15

structure BlockKey where
  ns : UInt64
  fileId : UInt64
  off : UInt64
  domain : BlockDomain
  deriving DecidableEq

structure CacheEntry where
  key : BlockKey
  data : Bytes
  referenced : Bool
  deriving DecidableEq

def CacheEntry.isVlog (e : CacheEntry) : Bool :=
  e.key.domain = .vlog

def clockSweepBudget : Nat := 32

structure Shard where
  map : List CacheEntry
  ring : List BlockKey
  used : Int
  cap : Int
  vlogEntries : Nat
  vlogUsed : Int
  deriving DecidableEq

namespace Shard

def new (cap : Int) : Shard :=
  ⟨[], [], 0, cap, 0, 0⟩

variable (s : Shard)

def find (k : BlockKey) : Option CacheEntry :=
  Keyed.find CacheEntry.key k s.map

def unlink (k : BlockKey) : Shard :=
  match s.find k with
  | none => s
  | some e => { s with
      map := Keyed.drop CacheEntry.key k s.map
      used := s.used - e.data.length
      vlogEntries := if e.isVlog then s.vlogEntries - 1 else s.vlogEntries
      vlogUsed := if e.isVlog then s.vlogUsed - e.data.length else s.vlogUsed }

def mark (k : BlockKey) (referenced : Bool) : Shard :=
  { s with map := s.map.map fun e => if e.key = k then { e with referenced := referenced } else e }

def evictToCap (s : Shard) (spared : Nat) : Shard :=
  if s.used > s.cap ∧ s.map.length > 1 then
    match _h : s.ring with
    | [] => s
    | k :: ring =>
      match s.find k with
      | none => evictToCap { s with ring := ring } spared
      | some e =>
        if spared < clockSweepBudget ∧ e.referenced then
          evictToCap { s.mark k false with ring := ring ++ [k] } (spared + 1)
        else evictToCap { s.unlink k with ring := ring } spared
  else s
termination_by s.ring.length + (clockSweepBudget - spared)
decreasing_by all_goals simp [_h]; try omega

def clear : Shard :=
  new s.cap

def put (k : BlockKey) (data : Bytes) : Shard :=
  match s.find k with
  | some _ => s.mark k true
  | none =>
    let s' := { s with
      map := ⟨k, data, false⟩ :: s.map
      ring := s.ring ++ [k]
      used := s.used + data.length
      vlogEntries := if k.domain = .vlog then s.vlogEntries + 1 else s.vlogEntries
      vlogUsed := if k.domain = .vlog then s.vlogUsed + data.length else s.vlogUsed }
    if s'.used > s'.cap then s'.evictToCap 0 else s'

def purge (ns : UInt64) : Shard :=
  ((s.map.map CacheEntry.key).filter (·.ns = ns)).foldl unlink s

end Shard

def shardFor (k : BlockKey) : Fin 16 :=
  let h := ((k.fileId * 1099511628211 ^^^ k.off) + k.domain.salt) ^^^ k.ns * 0xFF51AFD7ED558CCD
  ⟨(h ^^^ h >>> 33).toNat % 16, Nat.mod_lt _ (by decide)⟩

inductive Call
  | get (k : BlockKey)
  | peek (k : BlockKey)
  | put (k : BlockKey) (data : Bytes)
  | remove (k : BlockKey)
  | purgeNamespace (ns : UInt64)
  | clear

def Shard.exec (i : Fin 16) (s : Shard) : Call → Shard
  | .get k => if shardFor k = i then s.mark k true else s
  | .peek _ => s
  | .put k data => if shardFor k = i then s.put k data else s
  | .remove k => if shardFor k = i then s.unlink k else s
  | .purgeNamespace ns => s.purge ns
  | .clear => s.clear

-- A cache that is not enabled has no shards; here they stay empty.
structure Cache where
  enabled : Bool
  shards : Fin 16 → Shard

namespace Cache

def new (capacityBytes : Int) : Cache where
  enabled := capacityBytes > 0
  shards := fun _ => .new (max (capacityBytes / 16) 1)

def exec (c : Cache) (call : Call) : Cache :=
  if c.enabled then { c with shards := fun i => (c.shards i).exec i call } else c

def lookup (c : Cache) (k : BlockKey) : Option Bytes :=
  if c.enabled then ((c.shards (shardFor k)).find k).map CacheEntry.data else none

end Cache

end OndaDb.BlockCache

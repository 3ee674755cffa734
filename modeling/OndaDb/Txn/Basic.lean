import OndaDb.Error
import OndaDb.Lib.Map
import OndaDb.Tree

-- Transactions: the buffer of writes, its index and its savepoints.
namespace OndaDb

variable {K V : Type}

inductive IsolationLevel
  | readUncommitted
  | readCommitted
  | repeatableRead
  | snapshot
  | serializable
  deriving DecidableEq, Repr

inductive TxnState
  | active
  | prepared
  | finished
  deriving DecidableEq, Repr

structure Family (K V : Type) where
  id : Nat
  name : String
  mergeOp : Option (MergeOperator K V)
  mergeWritesEnabled : Bool

-- A buffered operation. The range delete of `[start, stop)` has its start in the place of the key.
inductive WriteOp (K V : Type)
  | point (key : K) (value : V) (ttl : Int) (kind : Kind)
  | range (start stop : K)
  deriving DecidableEq, Repr

structure WriteEntry (K V : Type) where
  cf : Nat
  op : WriteOp K V
  deriving DecidableEq, Repr

namespace WriteEntry

def key (w : WriteEntry K V) : K :=
  match w.op with
  | .point key .. => key
  | .range start _ => start

def tombstone (w : WriteEntry K V) : Bool :=
  match w.op with
  | .point _ _ _ kind => kind.tombstone
  | .range .. => false

def isMerge (w : WriteEntry K V) : Bool :=
  match w.op with
  | .point _ _ _ kind => kind = .merge
  | .range .. => false

def isRange (w : WriteEntry K V) : Bool :=
  match w.op with
  | .point .. => false
  | .range .. => true

def covers [LinearOrder K] (w : WriteEntry K V) (cf : Nat) (key : K) : Bool :=
  match w.op with
  | .point .. => false
  | .range start stop => w.cf = cf ∧ start ≤ key ∧ key < stop

def writes [DecidableEq K] (w : WriteEntry K V) (cf : Nat) (key : K) : Bool :=
  match w.op with
  | .point k .. => w.cf = cf ∧ k = key
  | .range .. => false

end WriteEntry

-- Positions of the buffered point writes by the hash of family and key. Writes whose hashes collide
-- share a chain, and a range delete is in none.
structure WriteIndex where
  newest : Map Nat Nat
  prev : List (Option Nat)

namespace WriteIndex

-- The hash of a family and a key. Nothing is assumed about it.
variable (hash : Nat → K → Nat)

def empty : WriteIndex where
  newest := ∅
  prev := []

def push (i : WriteIndex) (w : WriteEntry K V) : WriteIndex :=
  if w.isRange then { i with prev := i.prev ++ [none] }
  else
    let h := hash w.cf w.key
    { newest := i.newest.insert h i.prev.length
      prev := i.prev ++ [i.newest.lookup h] }

def build (writes : List (WriteEntry K V)) : WriteIndex :=
  writes.foldl (push hash) empty

def unwind (prev : List (Option Nat)) (newest : Map Nat Nat) (i : Nat) (w : WriteEntry K V) :
    Map Nat Nat :=
  if w.isRange then newest
  else match prev[i]?.join with
    | none => newest.erase (hash w.cf w.key)
    | some p => newest.insert (hash w.cf w.key) p

def truncate (i : WriteIndex) (writes : List (WriteEntry K V)) (len : Nat) : WriteIndex where
  newest := (writes.zipIdx.drop len).reverse.foldl (fun m w => unwind hash i.prev m w.2 w.1) i.newest
  prev := i.prev.take len

end WriteIndex

-- A transaction. The reads are kept in the order of their first insertion.
structure Txn (K V : Type) where
  isolation : IsolationLevel
  readSeq : Nat
  writes : List (WriteEntry K V)
  -- The index of the point writes, once a read found the buffer large enough to need one.
  writeIndex : Option WriteIndex
  writeIndexMin : Nat
  rangeWrites : List Nat
  readLog : List (Nat × K)
  savepoints : List (String × Nat × Nat)
  state : TxnState
  pessimistic : Bool

namespace Txn

def fixed (t : Txn K V) : Bool :=
  match t.isolation with
  | .repeatableRead | .snapshot | .serializable => true
  | .readUncommitted | .readCommitted => false

def beginInner (isolation : IsolationLevel) (pessimistic : Bool) (readSeq : Nat) : Txn K V where
  isolation := isolation
  readSeq := readSeq
  writes := []
  writeIndex := none
  writeIndexMin := 32
  rangeWrites := []
  readLog := []
  savepoints := []
  state := .active
  pessimistic := pessimistic

variable (hash : Nat → K → Nat)

def pushWrite (t : Txn K V) (w : WriteEntry K V) : Txn K V :=
  { t with
    rangeWrites := if w.isRange then t.rangeWrites ++ [t.writes.length] else t.rangeWrites
    writeIndex := t.writeIndex.map (·.push hash w)
    writes := t.writes ++ [w] }

def ensureActive (t : Txn K V) : Except OndaError Unit :=
  if t.state = .active then .ok ()
  else .error (.invalidArgs "transaction already finished")

def buffer (t : Txn K V) (cf : Family K V) (key : K) (value : V) (ttl : Int) (kind : Kind) :
    Except OndaError (Txn K V) := do
  t.ensureActive
  return t.pushWrite hash ⟨cf.id, .point key value ttl kind⟩

-- The `ttl` is absolute, 0 if there is none.
def put (t : Txn K V) (cf : Family K V) (key : K) (value : V) (ttl : Int) :
    Except OndaError (Txn K V) :=
  t.buffer hash cf key value ttl .put

def delete [Inhabited V] (t : Txn K V) (cf : Family K V) (key : K) : Except OndaError (Txn K V) :=
  t.buffer hash cf key default 0 .delete

def singleDelete [Inhabited V] (t : Txn K V) (cf : Family K V) (key : K) :
    Except OndaError (Txn K V) :=
  t.buffer hash cf key default 0 .singleDelete

def merge (t : Txn K V) (cf : Family K V) (key : K) (operand : V) : Except OndaError (Txn K V) := do
  t.ensureActive
  if cf.mergeOp.isNone then
    let name := reprStr cf.name
    throw (.invalidArgs (s!"column family {name} has no merge operator; set " ++
      "ColumnFamilyConfig::merge_operator_name when creating it"))
  if !cf.mergeWritesEnabled then
    throw (.readOnly "merge operands require CAP_MERGE_OPERANDS, which this database has not enabled")
  t.buffer hash cf key operand 0 .merge

-- A family whose range deletes need the format capability, and whose keys may be empty.
def validateRangeBounds [LinearOrder K] [Repr K] (rangeDeletes : Bool) (isEmpty : K → Bool)
    (start stop : K) : Except OndaError Unit := do
  if !rangeDeletes then
    throw (.invalidArgs ("range deletes require the CAP_RANGE_DELETES format capability; " ++
      "call DB::enable_format_capabilities(ondadb::format::CAP_RANGE_DELETES) " ++
      "once, before the first delete_range"))
  if isEmpty start || isEmpty stop then
    throw (.invalidArgs ("delete_range bounds must be non-empty: an empty end would delete " ++
      "nothing and an empty start is indistinguishable from absent"))
  if stop ≤ start then
    let a := reprStr start
    let b := reprStr stop
    throw (.invalidArgs (s!"delete_range start {a} must sort strictly before end {b} " ++
      "under this column family's comparator (the interval is half-open)"))

def deleteRange [LinearOrder K] [Repr K] (t : Txn K V) (rangeDeletes : Bool) (isEmpty : K → Bool)
    (cf : Family K V) (start stop : K) : Except OndaError (Txn K V) := do
  t.ensureActive
  validateRangeBounds rangeDeletes isEmpty start stop
  return t.pushWrite hash ⟨cf.id, .range start stop⟩

def setSavepoint (t : Txn K V) (name : String) : Txn K V :=
  { t with savepoints := t.savepoints ++ [(name, t.writes.length, t.readLog.length)] }

def findSavepoint (t : Txn K V) (name : String) : Except OndaError Nat :=
  match t.savepoints.reverse.findIdx? (·.1 = name) with
  | some i => .ok (t.savepoints.length - 1 - i)
  | none => .error (.invalidArgs s!"no savepoint {name}")

def rollbackToSavepoint (t : Txn K V) (name : String) : Except OndaError (Txn K V) := do
  let pos ← t.findSavepoint name
  let (_, writesLen, readLen) := t.savepoints.getD pos ("", 0, 0)
  return { t with
    writeIndex := t.writeIndex.map fun i => i.truncate hash t.writes writesLen
    rangeWrites := t.rangeWrites.takeWhile (· < writesLen)
    writes := t.writes.take writesLen
    readLog := t.readLog.take readLen
    savepoints := t.savepoints.take (pos + 1) }

def releaseSavepoint (t : Txn K V) (name : String) : Except OndaError (Txn K V) := do
  let pos ← t.findSavepoint name
  return { t with savepoints := t.savepoints.take pos }

end Txn

end OndaDb

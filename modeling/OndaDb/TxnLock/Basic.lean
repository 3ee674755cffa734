import OndaDb.Error
import OndaDb.Lib.Map

-- Point locks for pessimistic transactions.
namespace OndaDb.TxnLock

-- A lock's identity: the durable id of the column family and the user key.
abbrev LockKey := Nat × List UInt8

inductive WaiterState
  | queued
  | granted
  | deniedWaitDie
  | deniedReserved
  | deniedShutdown
  deriving DecidableEq, Repr

-- The owner of an entry that is kept only for its stamp. Transaction ids start at 1.
def noOwner : Nat := 0

-- Free entries tolerated before a release sweeps them.
def sweepAt : Nat := 64

-- `cell` names the state a queued waiter shares with its parked call.
structure Waiter where
  txnId : Nat
  cell : Nat
  deriving DecidableEq, Repr

structure LockEntry where
  owner : Nat
  -- The sequence the last owner committed at, or 0.
  lastCommitSeq : Nat
  waiters : List Waiter
  deriving DecidableEq, Repr

structure Table where
  entries : Map LockKey LockEntry
  held : Map Nat (List LockKey)
  freeStamped : Nat
  shutdown : Option OndaError
  wakeReason : Option OndaError
  cells : Nat → WaiterState
  cellCount : Nat

inductive Acquired
  | granted (seq : Nat)
  | reentrant
  | failed (err : OndaError)
  deriving DecidableEq, Repr

namespace Table

def new : Table where
  entries := ∅
  held := ∅
  freeStamped := 0
  shutdown := none
  wakeReason := none
  cells := fun _ => .queued
  cellCount := 0

def heldBy (t : Table) (txnId : Nat) : List LockKey :=
  (t.held.lookup txnId).getD []

def pushHeld (t : Table) (txnId : Nat) (k : LockKey) : Table :=
  { t with held := t.held.insert txnId (t.heldBy txnId ++ [k]) }

def setCells (t : Table) (ws : List Waiter) (state : WaiterState) : Table :=
  { t with cells := fun i => if ws.any (·.cell = i) then state else t.cells i }

-- The part of `acquire` before the wait: a result, or the waiter the call parks with.
def acquire (t : Table) (txnId cfId : Nat) (key : List UInt8) : Table × (Acquired ⊕ Waiter) :=
  match t.shutdown with
  | some err => (t, .inl (.failed err))
  | none =>
    let k := (cfId, key)
    match t.entries.lookup k with
    | none =>
      let t := { t with entries := t.entries.insert k ⟨txnId, 0, []⟩ }
      (t.pushHeld txnId k, .inl (.granted 0))
    | some e =>
      if e.owner = txnId then (t, .inl .reentrant)
      else if e.owner = noOwner then
        let t := { t with
          entries := t.entries.insert k { e with owner := txnId }
          freeStamped := t.freeStamped - 1 }
        (t.pushHeld txnId k, .inl (.granted e.lastCommitSeq))
      else if e.owner < txnId then
        (t, .inl (.failed (.conflict (s!"wait-die: transaction {txnId} is younger than transaction " ++
          s!"{e.owner}, which holds the lock on key {key} in column family {cfId}; " ++
          "retry with a new transaction"))))
      else
        let w := ⟨txnId, t.cellCount⟩
        ({ t with
          entries := t.entries.insert k { e with waiters := e.waiters ++ [w] }
          cells := fun i => if i = t.cellCount then .queued else t.cells i
          cellCount := t.cellCount + 1 }, .inr w)

-- What a parked call finds when it wakes up, `none` if it waits on.
def woken (t : Table) (w : Waiter) (cfId : Nat) (key : List UInt8) : Option Acquired :=
  match t.cells w.cell with
  | .queued => none
  | .granted => some (.granted ((t.entries.lookup (cfId, key)).elim 0 (·.lastCommitSeq)))
  | .deniedShutdown => some (.failed (t.wakeReason.getD (.invalidDb "database is closing")))
  | .deniedReserved =>
    some (.failed (.conflict (s!"the holder of key {key} in column family {cfId} prepared; " ++
      "the key is now reserved by a prepared transaction until it is " ++
      "resolved with commit_prepared or abort_prepared")))
  | .deniedWaitDie =>
    some (.failed (.conflict (s!"wait-die: transaction {w.txnId} is younger than the transaction " ++
      s!"the lock on key {key} in column family {cfId} was handed to; " ++
      "retry with a new transaction")))

-- Gives `k` to the front of its waiter queue, or parks it unowned.
def handOff (t : Table) (k : LockKey) (visibleSeq : Nat) : Table :=
  match t.entries.lookup k with
  | none => t -- The callers look the entry up.
  | some e =>
    match e.waiters with
    | w :: ws =>
      -- A waiter younger than the new owner would wait on an older transaction.
      let e := { e with owner := w.txnId, waiters := ws.filter (·.txnId < w.txnId) }
      { t with entries := t.entries.insert k e }
        |>.setCells [w] .granted
        |>.setCells (ws.filter (w.txnId ≤ ·.txnId)) .deniedWaitDie
        |>.pushHeld w.txnId k
    | [] =>
      if visibleSeq < e.lastCommitSeq
      then { t with
        entries := t.entries.insert k { e with owner := noOwner }
        freeStamped := t.freeStamped + 1 }
      else { t with entries := t.entries.erase k }

-- Drops the free entries whose stamp publication has caught up with.
def sweep (t : Table) (visibleSeq : Nat) : Table :=
  if t.freeStamped < sweepAt then t else
    let entries := t.entries.retain fun _ e => e.owner ≠ noOwner ∨ visibleSeq < e.lastCommitSeq
    { t with
      entries := entries
      freeStamped := (Map.values entries).countP (·.owner = noOwner) }

def releaseKey (txnId : Nat) (committedAt : Option Nat) (visibleSeq : Nat) (t : Table)
    (k : LockKey) : Table :=
  match t.entries.lookup k with
  | none => t
  | some e =>
    if e.owner ≠ txnId then t else
      let stamp := committedAt.elim e.lastCommitSeq (max e.lastCommitSeq)
      { t with entries := t.entries.insert k { e with lastCommitSeq := stamp } }.handOff k visibleSeq

def releaseAll (t : Table) (txnId : Nat) (committedAt : Option Nat) (visibleSeq : Nat) : Table :=
  match t.held.lookup txnId with
  | none => t
  | some keys =>
    keys.foldl (releaseKey txnId committedAt visibleSeq) { t with held := t.held.erase txnId }
      |>.sweep visibleSeq

def denyKey (txnId : Nat) (t : Table) (k : LockKey) : Table :=
  match t.entries.lookup k with
  | none => t
  | some e =>
    if e.owner ≠ txnId then t
    else { t with entries := t.entries.erase k }.setCells e.waiters .deniedReserved

-- Drops every lock of the transaction without handing it on, and denies every waiter.
def denyAll (t : Table) (txnId : Nat) : Table :=
  match t.held.lookup txnId with
  | none => t
  | some keys => keys.foldl (denyKey txnId) { t with held := t.held.erase txnId }

def wakeEveryWaiter (t : Table) : Table :=
  { t with entries := t.entries.mapValues fun e => { e with waiters := [] } }
    |>.setCells ((Map.values t.entries).flatMap LockEntry.waiters) .deniedShutdown

-- Fail-stop: the waiters are woken, and the table stays usable.
def wakeAllWithError (t : Table) (err : OndaError) : Table :=
  { t with wakeReason := some err }.wakeEveryWaiter

-- Close: later acquisitions are refused.
def shutDown (t : Table) (err : OndaError) : Table :=
  { t with shutdown := some (t.shutdown.getD err), wakeReason := some err }.wakeEveryWaiter

end Table

structure Parked where
  waiter : Waiter
  cfId : Nat
  key : List UInt8
  deriving DecidableEq, Repr

-- The table with the calls that are parked on it. The table's mutex makes every operation one step.
structure System where
  table : Table
  parked : List Parked

namespace System

def new : System where
  table := .new
  parked := []

def acquire (s : System) (txnId cfId : Nat) (key : List UInt8) : System :=
  match s.table.acquire txnId cfId key with
  | (t, .inl _) => { s with table := t }
  | (t, .inr w) => { table := t, parked := ⟨w, cfId, key⟩ :: s.parked }

-- A parked call wakes up, for whatever reason, and returns if it has been answered.
def wake (s : System) (p : Parked) : System :=
  match s.table.woken p.waiter p.cfId p.key with
  | none => s
  | some _ => { s with parked := s.parked.erase p }

inductive Step (s : System) : System → Prop
  | acquire  : txnId ≠ noOwner → Step s (s.acquire txnId cfId key)
  | wake     : p ∈ s.parked → Step s (s.wake p)
  | release  : Step s { s with table := s.table.releaseAll txnId committedAt visibleSeq }
  | deny     : Step s { s with table := s.table.denyAll txnId }
  | wakeAll  : Step s { s with table := s.table.wakeAllWithError err }
  | shutDown : Step s { s with table := s.table.shutDown err }

end System

end OndaDb.TxnLock

import OndaDb.Txn.Read

-- Scripts of calls on a transaction, and the operations that survive its savepoints.
namespace OndaDb

variable {K V : Type}

inductive Call (K V : Type)
  | put (cf : Family K V) (key : K) (value : V) (ttl : Int)
  | delete (cf : Family K V) (key : K)
  | singleDelete (cf : Family K V) (key : K)
  | merge (cf : Family K V) (key : K) (operand : V)
  | deleteRange (cf : Family K V) (start stop : K)
  | setSavepoint (name : String)
  | rollbackToSavepoint (name : String)
  | releaseSavepoint (name : String)
  | get (cf : Family K V) (key : K)

def Call.family? : Call K V → Option (Family K V)
  | .put cf .. | .delete cf _ | .singleDelete cf _ | .merge cf .. | .deleteRange cf .. | .get cf _ =>
    some cf
  | .setSavepoint _ | .rollbackToSavepoint _ | .releaseSavepoint _ => none

structure Txn.Env (K V : Type) where
  hash : Nat → K → Nat
  rangeDeletes : Bool
  isEmpty : K → Bool

variable [LinearOrder K] [Repr K] [Inhabited V]

def Txn.call (env : Env K V) (store : Nat → StoreRead K V) (floor : Nat) (t : Txn K V) :
    Call K V → Except OndaError (Txn K V)
  | .put cf key value ttl => t.put env.hash cf key value ttl
  | .delete cf key => t.delete env.hash cf key
  | .singleDelete cf key => t.singleDelete env.hash cf key
  | .merge cf key operand => t.merge env.hash cf key operand
  | .deleteRange cf start stop => t.deleteRange env.hash env.rangeDeletes env.isEmpty cf start stop
  | .setSavepoint name => .ok (t.setSavepoint name)
  | .rollbackToSavepoint name => t.rollbackToSavepoint env.hash name
  | .releaseSavepoint name => t.releaseSavepoint name
  | .get cf key => .ok (t.get env.hash (store cf.id) floor cf key).1

def Txn.run (env : Env K V) (store : Nat → StoreRead K V) (floor : Nat) (t : Txn K V)
    (calls : List (Call K V)) : Except OndaError (Txn K V) :=
  calls.foldlM (·.call env store floor) t

-- The operations that survive, with a copy of them for every savepoint.
structure Surviving (K V : Type) where
  ops : List (WriteEntry K V)
  saved : List (String × List (WriteEntry K V))

namespace Surviving

def empty : Surviving K V where
  ops := []
  saved := []

def write (s : Surviving K V) (cf : Family K V) (op : WriteOp K V) : Surviving K V :=
  { s with ops := s.ops ++ [⟨cf.id, op⟩] }

def unwind (s : Surviving K V) (name : String) (keep : Bool) : List (String × List (WriteEntry K V)) :=
  let older := (s.saved.reverse.dropWhile (·.1 ≠ name)).reverse
  if keep then older else older.dropLast

def call (s : Surviving K V) : Call K V → Surviving K V
  | .put cf key value ttl => s.write cf (.point key value ttl .put)
  | .delete cf key => s.write cf (.point key default 0 .delete)
  | .singleDelete cf key => s.write cf (.point key default 0 .singleDelete)
  | .merge cf key operand => s.write cf (.point key operand 0 .merge)
  | .deleteRange cf start stop => s.write cf (.range start stop)
  | .setSavepoint name => { s with saved := s.saved ++ [(name, s.ops)] }
  | .rollbackToSavepoint name =>
    { ops := ((s.unwind name true).getLast?.map (·.2)).getD s.ops
      saved := s.unwind name true }
  | .releaseSavepoint name => { s with saved := s.unwind name false }
  | .get .. => s

end Surviving

inductive Txn.Scripted (env : Env K V) (family : Nat → Family K V) : Txn K V → Surviving K V → Prop
  | start (level : IsolationLevel) (locks : Bool) (seq : Nat) :
    Scripted env family (.beginInner level locks seq) .empty
  | call (h : Scripted env family t s) (hf : ∀ cf ∈ c.family?, family cf.id = cf)
      (hc : t.call env store floor c = .ok t') : Scripted env family t' (s.call c)

-- A transaction after any accepted calls, with an index from any length of the buffer on.
inductive Txn.Called (env : Env K V) : Txn K V → Prop
  | start (level : IsolationLevel) (locks : Bool) (seq min : Nat) :
    Called env { (beginInner level locks seq : Txn K V) with writeIndexMin := min }
  | call (h : Called env t) (hc : t.call env store floor c = .ok t') : Called env t'
  | getInto (h : Called env t) (store : StoreRead K V) (bytes : V → List UInt8) (floor : Nat) (cf : Family K V)
      (key : K) (out : List UInt8) : Called env (t.getInto env.hash store bytes floor cf key out).1
  | multiGet (h : Called env t) (store : StoreRead K V) (floor : Nat) (cf : Family K V) (keys : List K) :
    Called env (t.multiGet env.hash store floor cf keys).1

end OndaDb

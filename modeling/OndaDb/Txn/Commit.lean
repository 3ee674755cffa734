import OndaDb.Lib.Slots
import OndaDb.Txn.Basic

-- The commit of a transaction: which buffered writes it keeps, in which order, and how it applies
-- them.
namespace OndaDb

variable {K V α : Type} [LinearOrder K]

namespace WriteEntry

def slot (w : WriteEntry K V) : Nat × K :=
  (w.cf, w.key)

def record (w : WriteEntry K V) (seq : Nat) : Option (Version K V) :=
  match w.op with
  | .point key value ttl kind => some { key, seq, ttl, kind, value }
  | .range .. => none

def span (w : WriteEntry K V) (seq : Nat) : Option (Span K) :=
  match w.op with
  | .point .. => none
  | .range start stop => some { start, stop, seq }

end WriteEntry

abbrev Families (K V : Type) := Nat → Tree K V

namespace Txn

-- Files the item `a` that stands for the write `w`: every write of a key takes the slot of the
-- key's first one, and a range delete takes a slot of its own.
def dedupStep (s : Slots (Nat × K) α) (w : WriteEntry K V) (a : α) : Slots (Nat × K) α :=
  if w.isRange then s.push a else s.upsert w.slot a fun _ => a

-- Files the item `a` in the run of its key: an operand extends the run, and anything else starts
-- it over.
def runStep (s : Slots (Nat × K) (List α)) (w : WriteEntry K V) (a : α) :
    Slots (Nat × K) (List α) :=
  s.upsert w.slot [a] fun run => if w.isMerge then run ++ [a] else [a]

def mergeAwareWriteOrder (writes : List (WriteEntry K V)) : List Nat :=
  (writes.zipIdx.foldl (fun s w => runStep s w.1 w.2) Slots.empty).slots.flatten

def deduplicatedWriteOrder (writes : List (WriteEntry K V)) : List Nat :=
  if writes.length = 1 then [0]
  else if writes.any (·.isMerge) then mergeAwareWriteOrder writes
  else (writes.zipIdx.foldl (fun s w => dedupStep s w.1 w.2) Slots.empty).slots

def ownRangeOverlap (writes : List (WriteEntry K V)) : Option (K × K × K) :=
  (writes.filter fun w => !w.isRange).findSome? fun w =>
    writes.findSome? fun r =>
      match r.op with
      | .range start stop => if r.covers w.cf w.key then some (w.key, start, stop) else none
      | .point .. => none

def checkOwnRangeOverlap [Repr K] (writes : List (WriteEntry K V)) : Except OndaError Unit :=
  match ownRangeOverlap writes with
  | none => .ok ()
  | some (k, start, stop) =>
    let key := reprStr k
    let a := reprStr start
    let b := reprStr stop
    .error (.invalidArgs (s!"write to key {key} falls inside this transaction's own " ++
      s!"range delete [{a}, {b}); v1 rejects the combination because the range would be ordered " ++
      "after the key's first write and could mask a later one"))

-- The checks a commit makes of the buffer alone. Only the unified layout commits to several
-- families at once.
def checkBuffer [Repr K] (unified : Bool) (writes : List (WriteEntry K V)) : Except OndaError (List Nat) := do
  let order := deduplicatedWriteOrder writes
  let families := order.filterMap fun i => writes[i]?.map (·.cf)
  if !unified && families.any (some · ≠ families.head?) then
    throw (.invalidArgs
      "multi-column-family transactions require unified_memtable=true for atomic commit")
  if writes.any (·.isRange) then checkOwnRangeOverlap writes
  return order

def slotted (writes : List (WriteEntry K V)) (order : List Nat) (start : Nat) :
    List (WriteEntry K V × Nat) :=
  (order.zipIdx start).filterMap fun i => writes[i.1]?.map (·, i.2)

def records (slots : List (WriteEntry K V × Nat)) (cf : Nat) : List (Version K V) :=
  slots.filterMap fun w => if w.1.cf = cf then w.1.record w.2 else none

def ranges (slots : List (WriteEntry K V × Nat)) (cf : Nat) : List (Span K) :=
  slots.filterMap fun w => if w.1.cf = cf then w.1.span w.2 else none

def applyGroups (db : Families K V) (slots : List (WriteEntry K V × Nat)) : Families K V :=
  fun cf => (db cf).applyBatch (records slots cf) (ranges slots cf)

def applyPrepared (db : Families K V) (writes : List (WriteEntry K V)) (order : List Nat)
    (start : Nat) : Families K V :=
  applyGroups db (slotted writes order start)

-- What a commit is to amount to: every buffered operation on its own, one after the other.
def applyInOrder (db : Families K V) (writes : List (WriteEntry K V)) (start : Nat) : Families K V :=
  (writes.zipIdx start).foldl (fun db w => applyGroups db [w]) db

end Txn

end OndaDb

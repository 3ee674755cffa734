import OndaDb.Lib.Run
import OndaDb.Prepared.Registry
import OndaDb.Txn.Validate

namespace OndaDb.Prepared

variable {I K V : Type} [DecidableEq I] [LinearOrder K] [ToString I] [ToString K]

-- The commit path of a database, one holder of the commit lock after another. `prepared` remembers
-- for every registered id the transaction that was prepared under it.
structure Session (I K V : Type) where
  log : CommitLog K V
  nextSeq : Nat
  spans : SpanIndex.System K
  registry : Registry I K V
  prepared : List (I × Request K V)

namespace Session

def start (capacity maxBytes : Nat) : Session I K V where
  log := []
  nextSeq := 1
  spans := .new capacity
  registry := .new maxBytes
  prepared := []

def checkReservations (reg : Registry I K V) (ws : List (WriteEntry K V)) : Except OndaError Unit :=
  if reg.isEmpty then .ok ()
  else ws.forM fun w =>
    let hit := match w.op with
      | .range a b => reg.ownerInRange w.cf a b
      | .point a .. => (reg.ownerOf w.cf a).map fun id => (id, a)
    match hit with
    | some (owner, key) =>
      .error (.conflict (s!"key {key} is reserved by prepared transaction {owner}; the " ++
        "reservation is released by commit_prepared or abort_prepared"))
    | none => .ok ()

def checkCommit (s : Session I K V) (r : Request K V) : Except OndaError Unit := do
  checkReservations s.registry r.writes
  r.validate s.log s.spans.index

-- First preparer wins: no write of a prepare may be reserved already.
def checkOverlap (reg : Registry I K V) (ws : List (WriteEntry K V)) : Except OndaError Unit :=
  ws.forM fun w =>
    match reg.ownerOf w.cf w.key with
    | some owner =>
      let key := w.key
      .error (.conflict s!"key {key} is already reserved by prepared transaction {owner}")
    | none => .ok ()

def checkPrepare (s : Session I K V) (id : I) (r : Request K V) (bytes : Nat) :
    Except OndaError Unit := do
  if r.hasRange then
    .error (.invalidArgs ("a transaction holding a range delete cannot be prepared: the prepare " ++
      "record carries one-key writes only (kinds 1/2/3, and 1.1's operand)"))
  r.validate s.log s.spans.index
  if s.registry.knows id then
    .error (.alreadyExists s!"prepared transaction {id} is already registered")
  checkOverlap s.registry r.writes
  s.registry.checkCapacity bytes

structure Label (I K V : Type) where
  writes : List (WriteEntry K V)
  id : Option I

def Records (s : Session I K V) (ws : List (WriteEntry K V)) (i : SpanIndex.System K) : Prop :=
  Relation.ReflTransGen SpanIndex.System.Step s.spans i ∧ i.floor = s.spans.floor ∧
    i.committed = Request.markers s.nextSeq ws ++ s.spans.committed

def commit (s : Session I K V) (ws : List (WriteEntry K V)) (i : SpanIndex.System K) :
    Session I K V :=
  { s with
    log := CommitLog.stamp s.nextSeq ws ++ s.log
    nextSeq := s.nextSeq + ws.length
    spans := i }

-- One holder of the commit lock, or the span index on its own. A transaction pins its snapshot, so
-- the index is pruned at or below it.
inductive Step (s : Session I K V) : Label I K V → Session I K V → Prop
  | spans : SpanIndex.System.Step s.spans i → i.committed = s.spans.committed →
    Step s ⟨[], none⟩ { s with spans := i }
  | commit : s.spans.floor ≤ r.readSeq → r.readSeq < s.nextSeq → s.checkCommit r = .ok () →
    s.Records r.writes i → Step s ⟨r.writes, none⟩ (s.commit r.writes i)
  -- A commit whose apply fails publishes its sequences with nothing in them.
  | failed : Step s ⟨[], none⟩ { s with nextSeq := s.nextSeq + n }
  | prepare {id : I} : s.spans.floor ≤ r.readSeq → r.readSeq < s.nextSeq → s.checkPrepare id r bytes = .ok () →
    Step s ⟨[], none⟩ { s with
      registry := s.registry.register ⟨id, r.writes, bytes, gen⟩
      prepared := (id, r) :: s.prepared }
  | commitPrepared {id : I} : s.registry.resolve id = some (e, reg) → s.Records e.writes i →
    Step s ⟨e.writes, some id⟩ { s.commit e.writes i with
      registry := reg
      prepared := s.prepared.filter (·.1 ≠ id) }
  | abortPrepared {id : I} : s.registry.resolve id = some (e, reg) →
    Step s ⟨[], none⟩ { s with
      registry := reg
      prepared := s.prepared.filter (·.1 ≠ id) }
  | forget {id : I} : Step s ⟨[], none⟩ { s with registry := s.registry.forget id }

def validated (r : Request K V) : List (Nat × K) :=
  (r.writes.map fun w => (w.cf, w.key)) ++ if r.isolation = .serializable then r.reads else []

-- Every key a prepared transaction validated reads now as it did at its snapshot.
def Isolated (s : Session I K V) : Prop :=
  ∀ p ∈ s.prepared, p.2.needsCheck → ∀ k ∈ validated p.2,
    s.log.versionsAt k.1 k.2 s.nextSeq = s.log.versionsAt k.1 k.2 p.2.readSeq

-- The step commits no write of a key that another prepared, serializable transaction has read.
def Undisturbed (s : Session I K V) (l : Label I K V) : Prop :=
  ∀ p ∈ s.prepared, l.id ≠ some p.1 → p.2.isolation = .serializable →
    ∀ k ∈ p.2.reads, ∀ w ∈ l.writes, w.touches k.1 k.2 = false

end Session

end OndaDb.Prepared

import OndaDb.Prepared.Reuse

namespace OndaDb.Prepared

variable {I K V : Type}

namespace Store

def mems (s : Store I K V) : List (Sealed I K V) :=
  s.imms ++ [s.active]

def Readable (s : Store I K V) (i : Item I K V) : Prop :=
  (∃ m ∈ s.mems, i ∈ m.items) ∨ i ∈ s.tables

end Store

namespace Run

variable [DecidableEq I] [LinearOrder K] [ToString I] [ToString K]
variable (size : List (WriteEntry K V) → Nat)

structure Exact (r : Run I K V) : Prop where
  reopens : ∀ survives, ∃ s, Store.reopen size (Store.survivors survives r.store.files) r.store.tables
    r.store.floor r.store.registry.maxBytes = .ok s
  -- What is readable of a commit is what its decision named, and all of that is readable or was
  -- dropped by a compaction.
  committed : ∀ id ws start, (id, ws, start) ∈ r.committed → r.store.registry.byId.lookup id = none ∧
    (∀ i, r.store.Readable i → i.source = .prepared id → i ∈ stampItems (.prepared id) start ws) ∧
    ∀ i ∈ stampItems (.prepared id) start ws, r.store.Readable i ∨ i ∈ r.dropped
  aborted : ∀ id ∈ r.aborted, r.store.registry.byId.lookup id = none ∧
    ∀ i, r.store.Readable i → i.source ≠ .prepared id
  undecided : ∀ id ws, (id, ws) ∈ r.prepared → id ∉ r.attempted →
    ∃ e, r.store.registry.byId.lookup id = some e ∧ e.writes = ws ∧
      ∀ w ∈ ws, r.store.registry.ownerOf w.cf w.key = some id
  dropped : ∀ i ∈ r.dropped, ¬ r.store.Readable i

-- Every id is prepared once; the sync of a prepare finds its handle open; and a sweep starts with no
-- other under way and takes no generation that a call in progress has written to.
def Timely (r : Run I K V) : Event I K V → Prop
  | .prepareAppend id _ => id ∉ r.used
  | .prepareSync _ => ∀ e i, r.store.busy = some (.preparing e i false) → r.store.isOpen e.prepareGen
  | .sweep => r.store.unlinking = [] ∧ ∀ b, r.store.busy = some b → b.gen ∉ r.store.gens.flushed
  | _ => True

end Run

end OndaDb.Prepared

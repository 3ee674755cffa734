import OndaDb.Publish.Basic
import Mathlib.Algebra.GroupWithZero.Nat

-- `plan_snapshot`: a checkpoint's flushes and its load of the catalog, beside commits, flushes and compactions.
namespace OndaDb.Checkpoint

structure Record (F E : Type) where
  cf : F
  seq : Nat
  entry : E
  deriving DecidableEq

-- Where a sealed memtable is on its way to the flush worker. A rotation seals before it counts the job.
inductive Status
  | unqueued
  | queued
  | failed
  deriving DecidableEq

structure Imm (F E : Type) where
  records : List (Record F E)
  status : Status
  deriving DecidableEq

structure Mem (F E : Type) where
  active : List (Record F E)
  imm : List (Imm F E)
  deriving DecidableEq

namespace Mem

variable {F E : Type} (m : Mem F E)

def sealedRecords : List (Record F E) :=
  m.imm.reverse.flatMap Imm.records

def records : List (Record F E) :=
  m.active ++ m.sealedRecords

def pending : Nat :=
  (m.imm.filter (·.status = .queued)).length

def rotate (status : Status) : Mem F E :=
  match m.active with
  | [] => m
  | rs => ⟨[], m.imm ++ [⟨rs, status⟩]⟩

def setStatus (i : Nat) (status : Status) : Mem F E :=
  { m with imm := m.imm.modify i ({ · with status }) }

end Mem

-- The memtables: one for each family, and the one that the families share in the unified layout.
inductive Lane (F : Type)
  | shared
  | own (cf : F)
  deriving DecidableEq

structure Commit (F E : Type) where
  lane : Lane F
  start : Nat
  records : List (Record F E)
  deriving DecidableEq

def Commit.stop (c : Commit F E) : Nat :=
  c.start + c.records.length

inductive Phase
  | own
  | shared
  | wait
  | load
  deriving DecidableEq

structure Call (F : Type) where
  visible : Nat
  todo : List F
  phase : Phase
  -- The sequence in the manifest that `persist_manifest` leaves.
  persisted : Nat
  deriving DecidableEq

structure State (F E : Type) where
  unified : Bool
  readOnly : Bool
  families : List F
  sequences : Publish.Sequences
  -- Commits that have their sequences and are still to be applied, and those still to be published.
  reserved : List (Commit F E)
  applied : List (Commit F E)
  mem : Lane F → Mem F E
  tables : F → List (Record F E)
  diskSeq : Nat
  poisoned : Bool
  call : Option (Call F)

inductive Event (F E : Type)
  | reserve (items : List (F × E))
  | apply (c : Commit F E)
  | applyErr (c : Commit F E)
  | publish (c : Commit F E)
  -- A rotation by someone else than the call: the swap, and then the queue.
  | swap (l : Lane F)
  | enqueue (l : Lane F) (i : Nat)
  -- The flush worker publishes in seal order; a flush that fails is taken off the count all the same.
  | flush (l : Lane F)
  | flushFail (l : Lane F) (i : Nat)
  | compact (cf : F) (records : List (Record F E))
  | start
  | call

namespace State

variable {F E : Type} [DecidableEq F] (s : State F E)

def visibleSeq : Nat :=
  s.sequences.visible

def laneOf (items : List (F × E)) : Lane F :=
  if s.unified then .shared else (items.head?.map fun i => .own i.1).getD .shared

def setMem (l : Lane F) (m : Mem F E) : State F E :=
  { s with mem := Function.update s.mem l m }

-- The memtables that a call of `flush_memtable` waits for, by their count: the family's own, or all of them in the
-- unified layout.
def lanesFor (cf : F) : List (Lane F) :=
  if s.unified then .shared :: s.families.map .own else [.own cf]

def pendingFor (cf : F) : Nat :=
  ((s.lanesFor cf).map fun l => (s.mem l).pending).sum

-- One family after another: its own memtable, the shared one, the wait; then the manifest and the load. A
-- read-only database has no other step, and no worker that would take what the rotations seal.
def callStep (c : Call F) : State F E :=
  match c.phase, c.todo with
  | .own,    cf :: _ =>
    { s.setMem (.own cf) ((s.mem (.own cf)).rotate .queued) with
      call := some { c with phase := if s.unified then .shared else .wait } }
  | .own,    [] => { s with call := some { c with phase := .load, persisted := s.visibleSeq } }
  | .shared, _ =>
    { s.setMem .shared ((s.mem .shared).rotate .queued) with call := some { c with phase := .wait } }
  | .wait,   _ :: todo => { s with call := some { c with phase := .own, todo } }
  | .wait,   [] => s
  | .load,   _ => { s with call := none }

def exec : Event F E → State F E
  | .reserve items =>
    let (start, sequences) := s.sequences.reserveSeq items.length
    { s with
      sequences
      reserved := ⟨s.laneOf items, start, items.mapIdx fun i (cf, entry) => ⟨cf, start + i, entry⟩⟩ :: s.reserved }
  | .apply c =>
    { s.setMem c.lane { s.mem c.lane with active := c.records.reverse ++ (s.mem c.lane).active } with
      reserved := s.reserved.filter (·.start ≠ c.start), applied := c :: s.applied }
  | .applyErr c =>
    { s with reserved := s.reserved.filter (·.start ≠ c.start), applied := c :: s.applied }
  | .publish c =>
    { s with
      sequences := s.sequences.publishRange c.start c.stop
      applied := s.applied.filter (·.start ≠ c.start) }
  | .swap l => s.setMem l ((s.mem l).rotate .unqueued)
  | .enqueue l i => s.setMem l ((s.mem l).setStatus i .queued)
  | .flush l =>
    match (s.mem l).imm with
    | oldest :: rest =>
      { s.setMem l { s.mem l with imm := rest } with
        tables := fun cf => oldest.records.filter (·.cf = cf) ++ s.tables cf }
    | [] => s
  | .flushFail l i => { s.setMem l ((s.mem l).setStatus i .failed) with poisoned := true }
  | .compact cf records => { s with tables := Function.update s.tables cf records }
  | .start =>
    if s.readOnly
    then { s with mem := fun l => (s.mem l).rotate .unqueued, call := some ⟨s.visibleSeq, [], .load, s.diskSeq⟩ }
    else { s with call := some ⟨s.visibleSeq, s.families, .own, 0⟩ }
  | .call => (s.call.map s.callStep).getD s

-- Outside the unified layout a commit is of one family. What a compaction writes has sequences of what it read.
def Enabled : Event F E → Prop
  | .reserve items => s.readOnly = false ∧ s.poisoned = false ∧ items ≠ [] ∧ (∀ i ∈ items, i.1 ∈ s.families) ∧
    (s.unified = false → ∀ i ∈ items, ∀ i' ∈ items, i.1 = i'.1)
  | .apply c => c ∈ s.reserved ∧ s.poisoned = false
  | .applyErr c => c ∈ s.reserved
  | .publish c => c ∈ s.applied
  | .swap l => s.readOnly = false ∧ (s.mem l).active ≠ []
  | .enqueue l i => s.readOnly = false ∧ (s.mem l).imm[i]?.map Imm.status = some .unqueued
  | .flush l => s.readOnly = false ∧ s.poisoned = false ∧ (s.mem l).imm.head?.map Imm.status = some .queued
  | .flushFail l i => s.readOnly = false ∧ (s.mem l).imm[i]?.map Imm.status = some .queued
  | .compact cf records => s.readOnly = false ∧ s.poisoned = false ∧ ∀ r ∈ records, r.seq ∈ (s.tables cf).map Record.seq
  | .start => s.call = none
  | .call => s.call.isSome ∧ ∀ c ∈ s.call, c.phase = .wait → ∀ cf ∈ c.todo.head?, s.pendingFor cf = 0

instance [DecidableEq E] : DecidablePred s.Enabled :=
  fun e => by cases e <;> (unfold Enabled; infer_instance)

def contents (cf : F) : List (Record F E) :=
  ((s.mem .shared).records ++ (s.mem (.own cf)).records).filter (·.cf = cf) ++ s.tables cf

def planned (cf : F) : List (Record F E) :=
  if s.readOnly
  then ((s.mem .shared).sealedRecords ++ (s.mem (.own cf)).sealedRecords).filter (·.cf = cf) ++ s.tables cf
  else s.tables cf

-- The catalog's sequence is raised to that of every point record, not to that of a range delete.
def raised (point : E → Bool) (seq : Nat) (records : List (Record F E)) : Nat :=
  ((records.filter fun r => point r.entry).map Record.seq).foldl max seq

def opened (point : E → Bool) (c : Call F) (cf : F) : List (Record F E) :=
  (s.planned cf).filter (·.seq ≤ raised point c.persisted (s.families.flatMap s.planned))

-- Opening the result gives the answers that `s` gives at one sequence.
def Instant (point : E → Bool) (answer : List (Record F E) → K → A) (c : Call F) : Prop :=
  ∃ q, c.visible ≤ q ∧
    ∀ cf ∈ s.families, ∀ k, answer (s.opened point c cf) k = answer ((s.contents cf).filter (·.seq ≤ q)) k

def SealsOld (l : Lane F) : Prop :=
  ∀ c ∈ s.call, ∀ r ∈ (s.mem l).active, r.seq ≤ c.visible

instance (l : Lane F) : Decidable (s.SealsOld l) := by
  unfold SealsOld
  infer_instance

-- The call's next step seals no such record either, and its wait ends when every memtable that was sealed has been
-- queued and none has failed.
def Settled (c : Call F) : Prop :=
  match c.phase with
  | .own => ∀ cf ∈ c.todo.head?, s.SealsOld (.own cf)
  | .shared => s.SealsOld .shared
  | .wait => ∀ cf ∈ c.todo.head?, ∀ l ∈ s.lanesFor cf, ∀ m ∈ (s.mem l).imm, m.status = .queued
  | .load => True

instance : DecidablePred s.Settled
  | ⟨_, _, .own, _⟩ => by unfold Settled; infer_instance
  | ⟨_, _, .shared, _⟩ => by unfold Settled; infer_instance
  | ⟨_, _, .wait, _⟩ => by unfold Settled; infer_instance
  | ⟨_, _, .load, _⟩ => by unfold Settled; infer_instance

-- A call begins while no commit is in flight, with no range delete of a read-only database above all that
-- raises the catalog's sequence.
def Orderly (point : E → Bool) : Event F E → Prop
  | .start => s.reserved = [] ∧ s.sequences.nextSeq = s.visibleSeq + 1 ∧
    (s.readOnly → ∀ r ∈ s.families.flatMap s.contents, r.seq ≤ raised point s.diskSeq (s.families.flatMap s.contents))
  | .swap l => s.SealsOld l
  | .call => ∀ c ∈ s.call, s.Settled c
  | _ => True

instance [DecidableEq E] (point : E → Bool) : DecidablePred (s.Orderly point) :=
  fun e => by cases e <;> (unfold Orderly; infer_instance)

def Step (s s' : State F E) : Prop :=
  ∃ e, s.Enabled e ∧ s' = s.exec e

def OrderlyStep (point : E → Bool) (s s' : State F E) : Prop :=
  ∃ e, s.Enabled e ∧ s.Orderly point e ∧ s' = s.exec e

structure Opened : Prop where
  reserved : s.reserved = []
  applied : s.applied = []
  call : s.call = none
  imm : ∀ l, (s.mem l).imm = []
  shared : s.unified = false → (s.mem .shared).active = []
  counted : s.sequences = .ofManifest s.visibleSeq
  mem : ∀ l, ∀ r ∈ (s.mem l).active, r.seq ≤ s.visibleSeq
  tables : ∀ cf, ∀ r ∈ s.tables cf, r.seq ≤ s.visibleSeq

end State

end OndaDb.Checkpoint

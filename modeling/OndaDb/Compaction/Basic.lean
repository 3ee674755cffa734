import OndaDb.Table

namespace OndaDb

inductive KeyBound (K : Type)
  | unbounded
  | included (k : K)
  | excluded (k : K)
  deriving DecidableEq, Repr

inductive Retention
  | drop
  | keep (filterEligible : Bool)
  deriving DecidableEq, Repr

-- Names the part a key belongs to, and the bytes that stay constant within one part.
structure PartitionResolver (K : Type) where
  nameOf : K → Option String
  boundary : K → Option K

structure FrozenJob (K V : Type) where
  bottom : Bool
  oldestSnapshot : Nat
  now : Int
  partitioner : Option (PartitionResolver K)
  filter : Option (K → V → Bool)
  mergeFold : Option (MergeOperator K V)
  ranges : List (Span K)
  foreignSpans : List (K × K)
  targetBytes : Nat
  length : K → V → Nat

section

variable {K V : Type} [LinearOrder K] [Inhabited K] [Inhabited V]

structure VersionRetention (K : Type) where
  lastKey : Option K
  emittedAtOrBelowSnapshot : Bool
  liveOperands : Bool

namespace VersionRetention

def new : VersionRetention K where
  lastKey := none
  emittedAtOrBelowSnapshot := false
  liveOperands := false

def enter (r : VersionRetention K) (key : K) : VersionRetention K :=
  if r.lastKey = some key then r else
    { lastKey := some key, emittedAtOrBelowSnapshot := false, liveOperands := false }

def decide (job : FrozenJob K V) (r : VersionRetention K) (v : Version K V) :
    Retention × VersionRetention K :=
  let r := r.enter v.key
  if v.seq ≤ job.oldestSnapshot ∧ r.emittedAtOrBelowSnapshot then (.drop, r) else
  let base := v.seq ≤ job.oldestSnapshot ∧ !v.isMerge
  let r := if base then { r with emittedAtOrBelowSnapshot := true } else r
  if base ∧ v.tombstone ∧ job.bottom ∧ !r.liveOperands then (.drop, r) else
  if job.bottom ∧ !v.isMerge ∧ !v.tombstone ∧ v.expired job.now then (.drop, r) else
  let eligible := !v.isMerge && !v.tombstone && v.seq ≤ job.oldestSnapshot && !v.expired job.now
  (.keep eligible, { r with liveOperands := v.isMerge })

end VersionRetention

structure CurrentOutput (K V : Type) where
  entries : List (Version K V)
  bytes : Nat
  partition : Option String

structure OutputBuilder (K V : Type) where
  current : Option (CurrentOutput K V)
  outputs : List (Table K V)
  lastBoundary : Option K
  fragments : List (Fragment K)
  intervalLower : Option K
  spanUpper : Option K
  pendingCut : Bool
  cutAfter : Option K

namespace OutputBuilder

def new (fragments : List (Fragment K)) (spanUpper : Option K) : OutputBuilder K V where
  current := none
  outputs := []
  lastBoundary := none
  fragments := fragments
  intervalLower := none
  spanUpper := spanUpper
  pendingCut := false
  cutAfter := none

-- The bounds a finished table records: its first and last point key. A table with fragments but no
-- point entry gets the bounds of its fragments.
def bounds (entries : List (Version K V)) (fragments : List (Fragment K)) : K × K :=
  match entries.head?, entries.getLast? with
  | some v, some w => (v.key, w.key)
  | _, _ =>
    let s := summarize fragments
    if 0 < s.count then (s.minKey.getD default, s.maxKey.getD default) else (default, default)

def finishCurrent (b : OutputBuilder K V) (upper : Option K) : OutputBuilder K V :=
  match b.current with
  | none => b
  | some current =>
    let fragments := clipFragments b.fragments b.intervalLower (upper.or b.spanUpper)
    let (minKey, maxKey) := bounds current.entries fragments
    let table : Table K V := {
      id := 0
      entries := current.entries
      fragments := fragments
      minKey := minKey
      maxKey := maxKey
      partition := current.partition
      tier := none
      foreign := false
    }
    { b with current := none, outputs := b.outputs ++ [table], intervalLower := upper }

def boundaryChanged (job : FrozenJob K V) (b : OutputBuilder K V) (key : K) : Bool :=
  match job.partitioner, b.lastBoundary with
  | some resolver, some previous => resolver.boundary key ≠ some previous
  | some resolver, none => (resolver.boundary key).isSome
  | none,          _ => false

def partitionCut (job : FrozenJob K V) (b : OutputBuilder K V) (key : K) : Bool :=
  match b.current with
  | none => false
  | some current =>
    b.boundaryChanged job key || current.partition ≠ (job.partitioner.bind (·.nameOf key))

def sizeCut (b : OutputBuilder K V) (key : K) : Bool :=
  b.pendingCut && b.current.isSome && b.cutAfter ≠ some key

def add (job : FrozenJob K V) (b : OutputBuilder K V) (v : Version K V) : OutputBuilder K V :=
  let current := b.current.getD {
    entries := []
    bytes := 0
    partition := job.partitioner.bind (·.nameOf v.key)
  }
  let bytes := current.bytes + job.length v.key v.value
  let b := { b with
    current := some { current with entries := current.entries ++ [v], bytes := bytes }
    lastBoundary := job.partitioner.bind (·.boundary v.key)
  }
  -- The cut is deferred to the next user key, which closes the interval.
  if max job.targetBytes 1 ≤ bytes ∧ !b.pendingCut
  then { b with pendingCut := true, cutAfter := some v.key }
  else b

def write (job : FrozenJob K V) (b : OutputBuilder K V) (v : Version K V) : OutputBuilder K V :=
  if b.partitionCut job v.key || b.sizeCut v.key
  then add job { b.finishCurrent (some v.key) with pendingCut := false } v
  else add job b v

def finish (b : OutputBuilder K V) : List (Table K V) :=
  let b := if b.current.isNone ∧ b.outputs = [] ∧ b.fragments ≠ []
    then { b with current := some { entries := [], bytes := 0, partition := none } }
    else b
  (b.finishCurrent none).outputs

end OutputBuilder

end

end OndaDb

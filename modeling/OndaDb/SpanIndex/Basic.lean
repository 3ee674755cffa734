import OndaDb.Error
import Mathlib.Data.List.Sort

-- The committed-span index: what committed recently, for the conflict checks of range deletes.
namespace OndaDb.SpanIndex

variable {K : Type} [LinearOrder K]

-- One committed write. A point write has no end and covers `start` alone.
structure Marker (K : Type) where
  cf : Nat
  start : K
  stop : Option K
  seq : Nat
  deriving DecidableEq, Repr

namespace Marker

def overlaps (m : Marker K) (start stop : K) : Bool :=
  match m.stop with
  | none => start ≤ m.start && m.start < stop
  | some mineStop => m.start < stop && start < mineStop

def covers (m : Marker K) (key : K) : Bool :=
  match m.stop with
  | none => m.start = key
  | some stop => m.start ≤ key && key < stop

end Marker

structure Index (K : Type) where
  markers : List (Marker K)
  -- Slots promised to callers that have reserved but not yet inserted.
  reserved : Nat
  capacity : Nat
  pruned : Nat
  overflowSeq : Nat
  deriving Repr

namespace Index

def new (capacity : Nat) : Index K where
  markers := []
  reserved := 0
  capacity := max capacity 1
  pruned := 0
  overflowSeq := 0

def noteOverflow (i : Index K) (seq : Nat) : Index K :=
  { i with overflowSeq := max i.overflowSeq seq }

def take (i : Index K) (n : Nat) : Option (Index K) :=
  if i.markers.length + i.reserved + n ≤ i.capacity then some { i with reserved := i.reserved + n }
  else none

-- Reserves `n` slots without blocking. A reservation is its number of outstanding slots.
def tryReserve (i : Index K) (n : Nat) : Index K × Option Nat :=
  if n = 0 then (i, some 0) else
    match i.take n with
    | some i' => (i', some n)
    | none => (i, none)

def dropMarkers (i : Index K) (oldest : Nat) : Index K :=
  let markers := i.markers.filter (oldest < ·.seq)
  { i with
    markers := markers
    pruned := i.pruned + (i.markers.length - markers.length) }

def ageOverflow (i : Index K) (oldest : Nat) : Index K :=
  if i.overflowSeq ≠ 0 ∧ i.overflowSeq ≤ oldest then { i with overflowSeq := 0 } else i

-- Drops every marker at or below the oldest live snapshot. The watermark ages out with the markers.
def prune (i : Index K) (oldest : Nat) : Index K :=
  (i.dropMarkers oldest).ageOverflow oldest

structure Pass where
  oldest : Nat
  cancelled : Bool
  giveUp : Bool

def reserve (i : Index K) (n : Nat) (passes : List Pass) : Index K × Except OndaError (Option Nat) :=
  if n = 0 then (i, .ok (some 0))
  else if i.capacity < n then
    (i, .error (.tooLarge (s!"transaction needs {n} span-index slots; the index holds {i.capacity} " ++
      "(raise Options::span_index_capacity)")))
  else go i passes
where
  go (i : Index K) : List Pass → Index K × Except OndaError (Option Nat)
    | [] => (i, .ok none)
    | p :: passes =>
      let i := i.prune p.oldest
      match i.take n with
      | some i' => (i', .ok (some n))
      | none =>
        if p.cancelled then
          (i, .error (.invalidDb "database is closing while waiting for span-index capacity"))
        else if p.giveUp then (i, .ok none)
        else go i passes

def rangeConflict (i : Index K) (cf : Nat) (start stop : K) (readSeq : Nat) : Option Nat :=
  if readSeq < i.overflowSeq then some i.overflowSeq else
    i.markers.find? (fun m => m.cf = cf && readSeq < m.seq && m.overlaps start stop) |>.map (·.seq)

-- The extra test of a point writer: is the key covered by a newer range delete?
def pointConflict (i : Index K) (cf : Nat) (key : K) (readSeq : Nat) : Option Nat :=
  if readSeq < i.overflowSeq then some i.overflowSeq else
    i.markers.find? (fun m => m.cf = cf && m.stop.isSome && readSeq < m.seq && m.covers key)
      |>.map (·.seq)

def insert (i : Index K) (outstanding : Nat) (m : Marker K) : Index K × Nat :=
  if 0 < outstanding
  then ({ i with reserved := i.reserved - 1, markers := i.markers ++ [m] }, outstanding - 1)
  else ({ i with markers := i.markers ++ [m] }, outstanding)

def release (i : Index K) (outstanding : Nat) : Index K :=
  if outstanding = 0 then i else { i with reserved := i.reserved - outstanding }

def insertMarkers (i : Index K) (outstanding seq : Nat) : List (Nat × K × Option K) → Index K × Nat
  | [] => (i, outstanding)
  | (cf, start, stop) :: ws =>
    let (i, outstanding) := i.insert outstanding ⟨cf, start, stop, seq⟩
    insertMarkers i outstanding (seq + 1) ws

end Index

-- The index with the reservations its callers hold, and with what a run has done to it: the highest
-- sequence it was pruned at, and every write that has been committed.
structure System (K : Type) where
  index : Index K
  reservations : List Nat
  floor : Nat
  committed : List (Marker K)

namespace System

def new (capacity : Nat) : System K where
  index := .new capacity
  reservations := []
  floor := 0
  committed := []

-- What the index does in one go: under its mutex, or on the atomic watermark.
inductive Step (s : System K) : System K → Prop
  | tryReserve : s.index.tryReserve n = (i, some r) →
    Step s { s with index := i, reservations := r :: s.reservations }
  | take : s.index.take n = some i → Step s { s with index := i, reservations := n :: s.reservations }
  | dropMarkers : Step s { s with index := s.index.dropMarkers oldest, floor := max s.floor oldest }
  -- The second half of a prune, after the first has dropped the markers.
  | ageOverflow : oldest ≤ s.floor → Step s { s with index := s.index.ageOverflow oldest }
  -- A caller inserts no more markers than it has reserved slots.
  | insert : s.reservations = rs₁ ++ r :: rs₂ → 0 < r → s.index.insert r m = (i, r') →
    Step s { s with index := i, reservations := rs₁ ++ r' :: rs₂, committed := m :: s.committed }
  | drop : s.reservations = rs₁ ++ r :: rs₂ →
    Step s { s with index := s.index.release r, reservations := rs₁ ++ rs₂ }
  -- A commit without a reservation records none of its writes.
  | overflow : (∀ m ∈ ms, m.seq ≤ seq) →
    Step s { s with index := s.index.noteOverflow seq, committed := ms ++ s.committed }

end System

end OndaDb.SpanIndex

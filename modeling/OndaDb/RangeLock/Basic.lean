import Mathlib.Data.Option.Basic
import Mathlib.Order.Lattice
import OndaDb.Lib.Run

-- The key ranges of a column family that jobs are rewriting.
namespace OndaDb.RangeLock

structure KeyRange (K : Type) where
  min : Option K
  max : Option K
  deriving DecidableEq, Repr

namespace KeyRange

variable {K : Type} [LinearOrder K]

def all : KeyRange K :=
  ⟨none, none⟩

def new (min max : K) : KeyRange K :=
  ⟨some min, some max⟩

def endsBefore (a b : KeyRange K) : Bool :=
  match a.max, b.min with
  | some amax, some bmin => amax < bmin
  | _,         _ => false

def overlaps (a b : KeyRange K) : Bool :=
  !(a.endsBefore b || b.endsBefore a)

def Contains (r : KeyRange K) (k : K) : Prop :=
  (∀ m ∈ r.min, m ≤ k) ∧ (∀ m ∈ r.max, k ≤ m)

def Inverted (r : KeyRange K) : Prop :=
  ∃ min ∈ r.min, ∃ max ∈ r.max, max < min

end KeyRange

structure Held (K : Type) where
  ranges : List (Nat × KeyRange K)
  nextToken : Nat
  deriving DecidableEq, Repr

namespace Held

variable {K : Type} [LinearOrder K]

def new : Held K :=
  ⟨[], 0⟩

def conflicts (h : Held K) (range : KeyRange K) : Bool :=
  h.ranges.any fun (_, r) => r.overlaps range

def tryAcquire (h : Held K) (range : KeyRange K) : Option (Nat × Held K) :=
  if h.conflicts range then none
  else some (h.nextToken, ⟨h.ranges ++ [(h.nextToken, range)], h.nextToken + 1⟩)

def release (h : Held K) (token : Nat) : Held K :=
  { h with ranges := h.ranges.filter fun (t, _) => t ≠ token }

end Held

structure Guard (J K : Type) where
  job : J
  token : Nat
  range : KeyRange K
  deriving DecidableEq, Repr

-- The locks of a family and the jobs that use them: the guards they have, and the ranges they wait for.
structure State (J K : Type) where
  held : Held K
  guards : List (Guard J K)
  waiting : List (J × KeyRange K)
  deriving DecidableEq, Repr

inductive Event (J K : Type)
  | tryAcquire (job : J) (range : KeyRange K)
  | acquireBlocking (job : J) (range : KeyRange K)
  -- A parked call of `acquireBlocking` looks again.
  | wake (job : J) (range : KeyRange K)
  | release (guard : Guard J K)
  deriving DecidableEq, Repr

namespace State

variable {J K : Type} [LinearOrder K] [DecidableEq J]

def start : State J K :=
  ⟨.new, [], []⟩

def acquire (s : State J K) (job : J) (range : KeyRange K) (granted : State J K) (s' : State J K) : State J K :=
  match s.held.tryAcquire range with
  | none => s'
  | some (token, held) => { granted with held, guards := s.guards ++ [⟨job, token, range⟩] }

def exec (s : State J K) : Event J K → State J K
  | .tryAcquire job range => s.acquire job range s s
  | .acquireBlocking job range => s.acquire job range s { s with waiting := s.waiting ++ [(job, range)] }
  | .wake job range => s.acquire job range { s with waiting := s.waiting.erase (job, range) } s
  | .release guard =>
    { s with held := s.held.release guard.token, guards := s.guards.erase guard }

def Enabled (s : State J K) : Event J K → Prop
  | .wake job range => (job, range) ∈ s.waiting
  | .release guard => guard ∈ s.guards
  | _ => True

instance (s : State J K) : DecidablePred s.Enabled
  | .wake job range => inferInstanceAs (Decidable ((job, range) ∈ s.waiting))
  | .release guard => inferInstanceAs (Decidable (guard ∈ s.guards))
  | .tryAcquire .. => .isTrue trivial
  | .acquireBlocking .. => .isTrue trivial

def Step (s s' : State J K) : Prop :=
  ∃ e, s.Enabled e ∧ s' = s.exec e

end State

end OndaDb.RangeLock

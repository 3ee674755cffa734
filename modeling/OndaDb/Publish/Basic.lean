import OndaDb.Lib.Map
import OndaDb.Lib.Run

namespace OndaDb.Publish

structure PublishState where
  cursor : Nat
  -- Published ranges the cursor has not reached, by start.
  completed : Map Nat Nat
  deriving DecidableEq

def PublishState.advance (p : PublishState) : PublishState :=
  match _h : p.completed.lookup p.cursor with
  | some stop => advance ⟨stop, p.completed.erase p.cursor⟩
  | none => p
termination_by p.completed.keys.length
decreasing_by
  have hm : p.cursor ∈ p.completed.keys := AList.lookup_isSome.mp (by simp [_h])
  have := List.length_pos_of_mem hm
  rw [AList.keys_erase, List.length_erase_of_mem hm]
  omega

structure Sequences where
  nextSeq : Nat
  visible : Nat
  publish : PublishState
  deriving DecidableEq

namespace Sequences

def ofManifest (globalSeq : Nat) : Sequences where
  nextSeq := globalSeq + 1
  visible := globalSeq
  publish := ⟨globalSeq + 1, ∅⟩

def reserveSeq (s : Sequences) (n : Nat) : Nat × Sequences :=
  (s.nextSeq, { s with nextSeq := s.nextSeq + n })

def publishRange (s : Sequences) (start stop : Nat) : Sequences :=
  let p := { s.publish with completed := s.publish.completed.insert start stop }.advance
  { s with publish := p, visible := p.cursor - 1 }

-- The two sections of `observe_seq`. The first is its loop of compare-and-exchange on `next_seq`, the
-- second holds the `publish` mutex.
def observeNext (s : Sequences) (seq : Nat) : Sequences :=
  if seq = 0 then s else { s with nextSeq := max s.nextSeq (seq + 1) }

def observeCursor (s : Sequences) (seq : Nat) : Sequences :=
  if seq = 0 then s
  else if seq + 1 > s.publish.cursor
  then { s with publish := { s.publish with cursor := seq + 1 }, visible := seq }
  else s

end Sequences

structure Range where
  start : Nat
  stop : Nat
  deriving DecidableEq

def Range.Holds (r : Range) (seq : Nat) : Prop :=
  r.start ≤ seq ∧ seq < r.stop

instance (r : Range) (P : Nat → Prop) [DecidablePred P] : Decidable (∀ seq, r.Holds seq → P seq) :=
  decidable_of_iff (∀ seq < r.stop, r.start ≤ seq → P seq)
    ⟨fun h seq hs => h seq hs.right hs.left, fun h seq hu hl => h seq ⟨hl, hu⟩⟩

instance (r : Range) (seq : Nat) : Decidable (r.Holds seq) :=
  inferInstanceAs (Decidable (_ ∧ _))

structure Observing where
  found : Nat
  seq : Nat
  deriving DecidableEq

structure System where
  sequences : Sequences
  ranges : List Range
  -- The ranges whose apply has returned, with or without an error, and those that are published.
  applied : List Range
  published : List Range
  installed : List Nat
  observing : List Observing
  pins : List Nat
  -- The last sequence that was reserved, or adopted by an `observe_seq` that has returned.
  last : Nat
  deriving DecidableEq

inductive Event
  | reserve (n : Nat)
  | install (r : Range) (seq : Nat)
  | applyOk (r : Range)
  | applyErr (r : Range)
  | publish (r : Range)
  | observeNext (seq : Nat)
  | observeCursor (o : Observing)
  | pin

namespace System

def ofManifest (globalSeq : Nat) : System where
  sequences := .ofManifest globalSeq
  ranges := []
  applied := []
  published := []
  installed := []
  observing := []
  pins := []
  last := globalSeq

def visibleSeq (s : System) : Nat :=
  s.sequences.visible

def cursor (s : System) : Nat :=
  s.sequences.publish.cursor

def exec (s : System) : Event → System
  | .reserve n =>
    let (start, sequences) := s.sequences.reserveSeq n
    { s with sequences, ranges := ⟨start, start + n⟩ :: s.ranges, last := start + n - 1 }
  | .install _ seq => { s with installed := seq :: s.installed }
  | .applyOk r => { s with applied := r :: s.applied }
  | .applyErr r => { s with applied := r :: s.applied }
  | .publish r =>
    { s with sequences := s.sequences.publishRange r.start r.stop, published := r :: s.published }
  | .observeNext seq =>
    { s with
      sequences := s.sequences.observeNext seq
      observing := ⟨s.sequences.nextSeq, seq⟩ :: s.observing }
  | .observeCursor o =>
    { s with
      sequences := s.sequences.observeCursor o.seq
      observing := s.observing.erase o
      last := max s.last o.seq }
  | .pin => { s with pins := s.visibleSeq :: s.pins }

-- What the callers do: they reserve at least one sequence, install the records of their own range, and
-- publish when their apply has returned, also with an error. An ingestion installs nothing before it
-- publishes its range, and is here like a commit whose apply fails at once.
def Enabled (s : System) : Event → Prop
  | .reserve n => 0 < n
  | .install r seq => r ∈ s.ranges ∧ r ∉ s.applied ∧ r.Holds seq
  | .applyOk r => r ∈ s.ranges ∧ r ∉ s.applied ∧ ∀ seq, r.Holds seq → seq ∈ s.installed
  | .applyErr r => r ∈ s.ranges ∧ r ∉ s.applied
  | .publish r => r ∈ s.ranges ∧ r ∈ s.applied ∧ r ∉ s.published
  | .observeNext _ => True
  | .observeCursor o => o ∈ s.observing
  | .pin => True

instance (s : System) : (e : Event) → Decidable (s.Enabled e)
  | .reserve n => inferInstanceAs (Decidable (0 < n))
  | .install r seq => inferInstanceAs (Decidable (r ∈ s.ranges ∧ r ∉ s.applied ∧ r.Holds seq))
  | .applyOk r =>
    inferInstanceAs (Decidable (r ∈ s.ranges ∧ r ∉ s.applied ∧ ∀ seq, r.Holds seq → seq ∈ s.installed))
  | .applyErr r => inferInstanceAs (Decidable (r ∈ s.ranges ∧ r ∉ s.applied))
  | .publish r => inferInstanceAs (Decidable (r ∈ s.ranges ∧ r ∈ s.applied ∧ r ∉ s.published))
  | .observeCursor o => inferInstanceAs (Decidable (o ∈ s.observing))
  | .observeNext _ => inferInstanceAs (Decidable True)
  | .pin => inferInstanceAs (Decidable True)

def Step (s s' : System) : Prop :=
  ∃ e, s.Enabled e ∧ s' = s.exec e

def Whole (s : System) (pin : Nat) (r : Range) : Prop :=
  (∀ seq, r.Holds seq → seq ∈ s.installed → pin < seq) ∨
  ∀ seq, r.Holds seq → seq ∈ s.installed ∧ seq ≤ pin

instance (s : System) (pin : Nat) (r : Range) : Decidable (s.Whole pin r) :=
  inferInstanceAs (Decidable ((∀ seq, r.Holds seq → _ → _) ∨ ∀ seq, r.Holds seq → _))

structure Sound (s : System) : Prop where
  covered : ∀ r ∈ s.ranges, ∀ seq, r.Holds seq → seq ≤ s.visibleSeq → r ∈ s.published
  whole : ∀ pin ∈ s.visibleSeq :: s.pins, ∀ r ∈ s.ranges, s.Whole pin r
  latest : (∀ r ∈ s.ranges, r ∈ s.published) → s.visibleSeq = s.last

-- An apply that fails has installed nothing; no range is published above a gap that an `observe_seq` in
-- progress has left in front of the cursor; and an `observe_seq` moves the cursor over no range that is
-- still to be published.
def Orderly (s : System) : Event → Prop
  | .applyErr r => ∀ seq, r.Holds seq → seq ∉ s.installed
  | .publish r => ∀ o ∈ s.observing, o.found ≤ o.seq → o.seq < r.start → o.seq < s.cursor
  | .observeCursor o => o.seq < s.cursor ∨ ∀ r ∈ s.ranges, r.start ≤ o.seq → r ∈ s.published
  | _ => True

instance (s : System) : (e : Event) → Decidable (s.Orderly e)
  | .applyErr r => inferInstanceAs (Decidable (∀ seq, r.Holds seq → seq ∉ s.installed))
  | .publish r =>
    inferInstanceAs (Decidable (∀ o ∈ s.observing, o.found ≤ o.seq → o.seq < r.start → o.seq < s.cursor))
  | .observeCursor o =>
    inferInstanceAs (Decidable (o.seq < s.cursor ∨ ∀ r ∈ s.ranges, r.start ≤ o.seq → r ∈ s.published))
  | .reserve _ => inferInstanceAs (Decidable True)
  | .install _ _ => inferInstanceAs (Decidable True)
  | .applyOk _ => inferInstanceAs (Decidable True)
  | .observeNext _ => inferInstanceAs (Decidable True)
  | .pin => inferInstanceAs (Decidable True)

def OrderlyStep (s s' : System) : Prop :=
  ∃ e, s.Enabled e ∧ s.Orderly e ∧ s' = s.exec e

end System

end OndaDb.Publish

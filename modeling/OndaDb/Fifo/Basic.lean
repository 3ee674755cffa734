import OndaDb.Lib.Newest
import OndaDb.Lib.Run
import Mathlib.Algebra.GroupWithZero.Nat
import Mathlib.Data.List.Sort

-- A family that evicts its oldest tables: concurrent flushes, ingestions and eviction passes.
namespace OndaDb.Fifo

inductive Entry (K V : Type)
  | point (key : K) (seq : Nat) (value : Option V)
  | range (start stop : K) (seq : Nat)
  deriving DecidableEq

namespace Entry

variable {K V : Type}

def seq : Entry K V → Nat
  | point _ n _ => n
  | range _ _ n => n

variable [LinearOrder K]

def Covers (k : K) : Entry K V → Prop
  | point key _ _ => key = k
  | range start stop _ => start ≤ k ∧ k < stop

instance (k : K) : DecidablePred (Covers (V := V) k)
  | point .. => by unfold Covers; infer_instance
  | range .. => by unfold Covers; infer_instance

def Overlaps : Entry K V → Entry K V → Prop
  | point key _ _, e' => e'.Covers key
  | e, point key' _ _ => e.Covers key'
  | range start stop _, range start' stop' _ => start < stop' ∧ start' < stop

instance (e e' : Entry K V) : Decidable (Overlaps e e') := by
  cases e <;> cases e' <;> unfold Overlaps <;> infer_instance

end Entry

structure Table (K V : Type) where
  id : Nat
  bytes : Nat
  entries : List (Entry K V)
  deriving DecidableEq

structure ImmMemtable (K V : Type) where
  entries : List (Entry K V)
  file : Option (Nat × Nat)
  deriving DecidableEq

structure Ingestion (K V : Type) where
  seq : Nat
  done : List (Table K V)
  deriving DecidableEq

structure State (K V : Type) where
  nextSeq : Nat
  nextFileId : Nat
  mem : List (Entry K V)
  -- Oldest first.
  imm : List (ImmMemtable K V)
  -- Newest first.
  l0 : List (Table K V)
  ingestions : List (Ingestion K V)
  victims : Option (List Nat)
  deriving DecidableEq

variable {K V : Type}

def bytes (tables : List (Table K V)) : Nat :=
  (tables.map (·.bytes)).sum

-- The loop of the size limit, over the tables left and the bytes they and those before them have.
def evictWhile (maxBytes total : Nat) : List (Table K V) → List (Table K V)
  | [] => []
  | t :: ts => if total ≤ maxBytes then [] else t :: evictWhile maxBytes (total - t.bytes) ts

def byAge (l0 : List (Table K V)) : List (Table K V) :=
  l0.insertionSort fun t u => t.id ≤ u.id

def sizeVictims (l0 : List (Table K V)) (maxBytes : Nat) : List (Table K V) :=
  if 0 < maxBytes then evictWhile maxBytes (bytes l0) (byAge l0) else []

-- `expired`: the tables whose file is older than the time to live, none if there is no such limit.
def selectFifoVictims (l0 : List (Table K V)) (maxBytes : Nat) (expired : List Nat) : List (Table K V) :=
  let ttl := (byAge l0).filter (·.id ∈ expired)
  ttl ++ (sizeVictims l0 maxBytes).filter (·.id ∉ expired)

inductive Event (K V : Type)
  | put (key : K) (value : Option V)
  | deleteRange (start stop : K)
  | seal
  -- A worker starts on the sealed memtable at this place of the queue; its table will have these bytes.
  | startFlush (i bytes : Nat)
  | publishFlush
  | startIngestion
  | ingestFile (i bytes : Nat) (points : List (K × Option V))
  | finishIngestion (i : Nat)
  | select (maxBytes : Nat) (expired : List Nat)
  | evict
  deriving DecidableEq

namespace State

variable (s : State K V)

def init : State K V :=
  ⟨1, 1, [], [], [], [], none⟩

def write (e : Entry K V) : State K V :=
  { s with mem := e :: s.mem, nextSeq := s.nextSeq + 1 }

def installL0 (tables : List (Table K V)) : State K V :=
  { s with l0 := tables.foldl (fun l t => t :: l) s.l0 }

def flushed (m : ImmMemtable K V) : List (Table K V) :=
  match m.file with
  | none => []
  | some (id, bytes) => if m.entries = [] then [] else [⟨id, bytes, m.entries⟩]

def exec : Event K V → State K V
  | .put key value => s.write (.point key s.nextSeq value)
  | .deleteRange start stop => s.write (.range start stop s.nextSeq)
  | .seal => { s with mem := [], imm := s.imm ++ [⟨s.mem, none⟩] }
  | .startFlush i bytes =>
    { s with imm := s.imm.modify i ({ · with file := some (s.nextFileId, bytes) }), nextFileId := s.nextFileId + 1 }
  | .publishFlush =>
    match s.imm with
    | [] => s
    | m :: imm => { s.installL0 (flushed m) with imm }
  | .startIngestion => { s with ingestions := s.ingestions ++ [⟨s.nextSeq, []⟩], nextSeq := s.nextSeq + 1 }
  | .ingestFile i bytes points =>
    { s with
      ingestions := s.ingestions.modify i fun x =>
        { x with done := x.done ++ [⟨s.nextFileId, bytes, points.map fun p => .point p.1 x.seq p.2⟩] }
      nextFileId := s.nextFileId + 1 }
  | .finishIngestion i =>
    match s.ingestions[i]? with
    | none => s
    | some x => { s.installL0 x.done with ingestions := s.ingestions.eraseIdx i }
  | .select maxBytes expired =>
    { s with victims := some ((selectFifoVictims s.l0 maxBytes expired).map (·.id)) }
  | .evict =>
    { s with l0 := s.l0.filter (·.id ∉ s.victims.getD []), victims := none }

def layers : List (List (Entry K V)) :=
  s.mem :: (s.imm.reverse.map (·.entries) ++ s.l0.map (·.entries))

variable [LinearOrder K]

def visible (k : K) (rs : Nat) : Option (Entry K V) :=
  newest Entry.seq (s.layers.flatten.filter fun e => e.Covers k ∧ e.seq ≤ rs)

-- The calls' own checks: a worker starts on a memtable once, the first in the queue is published
-- when its table is written, the keys of an ingestion ascend, and one pass runs at a time.
def Enabled : Event K V → Prop
  | .put .. => True
  | .deleteRange start stop => start < stop
  | .seal => True
  | .startFlush i _ => ∃ m ∈ s.imm[i]?, m.file = none
  | .publishFlush => ∃ m ∈ s.imm.head?, m.file.isSome
  | .startIngestion => True
  | .ingestFile i _ points =>
    ∃ x ∈ s.ingestions[i]?, points ≠ [] ∧
      (x.done.flatMap (·.entries) ++ points.map fun p => Entry.point p.1 x.seq p.2).Pairwise fun e e' => ¬e.Overlaps e'
  | .finishIngestion i => i < s.ingestions.length
  | .select .. => s.victims = none
  | .evict => s.victims.isSome

instance [DecidableEq V] : DecidablePred (s.Enabled) :=
  fun e => by cases e <;> (unfold Enabled; infer_instance)

end State

def Over [LinearOrder K] (newer older : List (Entry K V)) : Prop :=
  ∀ e ∈ newer, ∀ e' ∈ older, e.Overlaps e' → e'.seq < e.seq

instance [LinearOrder K] (newer older : List (Entry K V)) : Decidable (Over newer older) := by
  unfold Over
  infer_instance

def AscendingIds (l0 tables : List (Table K V)) : Prop :=
  (∀ t ∈ tables, ∀ u ∈ l0, u.id < t.id) ∧ tables.Pairwise fun t u => t.id < u.id

instance (l0 tables : List (Table K V)) : Decidable (AscendingIds l0 tables) := by
  unfold AscendingIds
  infer_instance

namespace State

variable [LinearOrder K] (s : State K V)

-- Ids are taken in the order of publication; an ingested table is newer than all L0 holds of its
-- keys and older than all the memtables hold of them; and what is past its time is the oldest.
def Orderly : Event K V → Prop
  | .publishFlush => ∀ m ∈ s.imm.head?, AscendingIds s.l0 (flushed m)
  | .finishIngestion i => ∀ x ∈ s.ingestions[i]?, AscendingIds s.l0 x.done ∧
      ∀ t ∈ x.done, (∀ u ∈ s.l0, Over t.entries u.entries) ∧ Over s.mem t.entries ∧
        ∀ m ∈ s.imm, Over m.entries t.entries
  | .select _ expired => s.l0.Pairwise fun t u => t.id ∈ expired → u.id ∈ expired
  | _ => True

instance [DecidableEq V] : DecidablePred (s.Orderly) :=
  fun e => by cases e <;> (unfold Orderly; infer_instance)

def OrderlyStep (s s' : State K V) : Prop :=
  ∃ e, s.Enabled e ∧ s.Orderly e ∧ s' = s.exec e

end State

end OndaDb.Fifo

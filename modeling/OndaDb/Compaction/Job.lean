import OndaDb.Compaction.RunSpan
import OndaDb.Compaction.Select

namespace OndaDb

variable {K V : Type} [LinearOrder K] [Inhabited K]

namespace SpanPlan

-- The keys a job could be split at: the first keys of partitions, if the output is partitioned, and
-- the first keys of the target tables, or of the inputs if there is none of those.
def candidates (inputs targetTables : List (Table K V)) (partitioner : Option (PartitionResolver K)) :
    List K :=
  let mandatory := partitioner.toList.flatMap fun r => inputs.flatMap fun t =>
    (r.boundary t.minKey).toList ++ (r.boundary t.maxKey).toList
  let keys := mandatory ++ targetTables.map Table.minKey
  let keys := if keys.isEmpty then inputs.map Table.minKey else keys
  -- A cut inside a partition would divide it.
  let keys := keys.filter fun c => partitioner.all fun r => (r.boundary c).all (· = c)
  (keys.insertionSort (· ≤ ·)).dedup

def nearest (weights : List Nat) (total wanted : Nat) : List Nat :=
  (List.range wanted).foldl (fun chosen k =>
    let goal := total / (wanted + 1) * (k + 1)
    let free := (List.range weights.length).filter (· ∉ chosen)
    chosen ++ (free.argmin fun i =>
      (weights[i]?.getD 0 - goal) + (goal - weights[i]?.getD 0)).toList) []

def sample (bytes : Table K V → Nat) (weighed : List (Table K V)) (wanted : Nat) (keys : List K) :
    List K :=
  if keys.length ≤ wanted then keys else
  let below (c : K) := ((weighed.filter (·.maxKey < c)).map bytes).sum
  let total := (weighed.map bytes).sum
  (nearest (keys.map below) total wanted).insertionSort (· ≤ ·) |>.filterMap (keys[·]?)

def occupied (inputs : List (Table K V)) : Option K → List K → List K
  | _,        [] => []
  | previous, c :: cs =>
    if inputs.any fun t => t.minKey < c && previous.all (· ≤ t.maxKey)
    then c :: occupied inputs (some c) cs
    else occupied inputs previous cs

end SpanPlan

-- The keys at which a job is split: the first span starts unbounded, each next one at a cut.
def planSpans (cfg : Config K V) (inputs targetTables : List (Table K V))
    (partitioner : Option (PartitionResolver K)) (maxSpans : Nat) : List K :=
  if maxSpans ≤ 1 || inputs.isEmpty then [] else
  -- A resolver that names no boundary in this job constrains nothing.
  let partitioner := partitioner.filter fun r => inputs.any fun t =>
    (r.boundary t.minKey).isSome || (r.boundary t.maxKey).isSome
  if partitioner.isSome && !cfg.bytewise then [] else
  let (jobMin, jobMax) := Levels.keySpan inputs
  let keys := SpanPlan.candidates inputs targetTables partitioner
    |>.filter fun c => jobMin < c && c ≤ jobMax
  let weighed := if targetTables.isEmpty then inputs else targetTables
  SpanPlan.occupied inputs none (SpanPlan.sample cfg.bytes weighed (maxSpans - 1) keys)

def spansFrom (lower : KeyBound K) : List K → List (KeyBound K × KeyBound K)
  | [] => [(lower, .unbounded)]
  | c :: cs => (lower, .excluded c) :: spansFrom (.included c) cs

def FrozenJob.new (cfg : Config K V) (levels : Levels K V) (target : Nat) (inputs : List (Table K V))
    (oldestSnapshot : Nat) (now : Int) : FrozenJob K V where
  bottom := levels.targetIsBottom target
  oldestSnapshot := oldestSnapshot
  now := now
  partitioner := if levels.targetIsBottom target then some cfg.partitioner else none
  filter := cfg.filter
  mergeFold := if cfg.enableMergeFolding && !inputs.any Table.foreign
                    then cfg.mergeOperator else none
  ranges := collectInputRanges inputs
  foreignSpans := (levels.flatten.filter Table.foreign).map fun t => (t.spanMin, t.spanMax)
  targetBytes := cfg.targetFileSize
  length := cfg.length

structure KeyRange (K : Type) where
  min : Option K
  max : Option K

namespace KeyRange

def all : KeyRange K where
  min := none
  max := none

def union : List (K × K) → Option (KeyRange K)
  | [] => none
  | (lo, hi) :: rest =>
    let range := rest.foldl (fun (m : K × K) s =>
      (if s.1 < m.1 then s.1 else m.1, if m.2 < s.2 then s.2 else m.2)) (lo, hi)
    some ⟨some range.1, some range.2⟩

end KeyRange

structure Job (K V : Type) where
  target : Nat
  inputs : List (Table K V)
  frozen : FrozenJob K V
  cuts : List K
  range : KeyRange K

namespace Job

def spanBudget (cfg : Config K V) (source : Source K) : Nat :=
  if !source.bounded || cfg.filter.isSome then 0 else max cfg.maxSubcompactions 1 - 1

-- The job a source yields; `granted` is what the database's pool of span workers has left.
def prepare (cfg : Config K V) (levels : Levels K V) (source : Source K) (oldestSnapshot : Nat)
    (now : Int) (granted : Nat) : Option (Job K V) := do
  let inputs ← source.inputs cfg levels
  let target := source.target levels
  let frozen := FrozenJob.new cfg levels target inputs oldestSnapshot now
  let targetTables := inputs.filter fun t => t.id ∈ (levels.level target).map Table.id
  let hull ← KeyRange.union (inputs.map fun t => (t.minKey, t.maxKey))
  return {
    target := target
    inputs := inputs
    frozen := frozen
    cuts := planSpans cfg inputs targetTables frozen.partitioner
                (min granted (spanBudget cfg source) + 1)
    range := if source.bounded then hull else .all
  }

def spans (job : Job K V) : List (KeyBound K × KeyBound K) :=
  spansFrom .unbounded job.cuts

variable [Inhabited V]

def written (job : Job K V) : List (Table K V) :=
  job.spans.flatMap fun span => runSpan job.frozen job.inputs span.1 span.2

def withIds : Nat → List (Table K V) → List (Table K V)
  | _,  [] => []
  | id, t :: ts => { t with id := id } :: withIds (id + 1) ts

def outputs (job : Job K V) (nextId : Nat) : List (Table K V) :=
  withIds nextId job.written

def retained (job : Job K V) (tables : List (Table K V)) : List (Table K V) :=
  tables.filter fun t => t.id ∉ job.inputs.map Table.id

def install (job : Job K V) (levels : Levels K V) (outputs : List (Table K V)) : Levels K V :=
  (List.range (max (job.target + 1) levels.length)).map fun i =>
    let tables := job.retained (levels.level i)
    if i = job.target
    then (tables ++ outputs).insertionSort fun a b => a.minKey ≤ b.minKey
    else tables

end Job

end OndaDb

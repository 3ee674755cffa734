import OndaDb.Compaction.Basic
import OndaDb.Tree

namespace OndaDb

abbrev Levels (K V : Type) := List (List (Table K V))

namespace Levels

variable {K V : Type}

def level (levels : Levels K V) (i : Nat) : List (Table K V) :=
  levels[i]?.getD []

def targetIsBottom (levels : Levels K V) (target : Nat) : Bool :=
  let numLevels := max levels.length (target + 1)
  numLevels - 1 ≤ target && (levels.drop (target + 1)).all List.isEmpty

def own (tables : List (Table K V)) : List (Table K V) :=
  tables.filter fun t => !t.foreign

def oldestWindow (levels : Levels K V) (count : Nat) : List (Table K V) :=
  (own (levels.level 0)).reverse.take count

variable [LinearOrder K]

def rangesOverlap (amin amax bmin bmax : K) : Bool :=
  amin ≤ bmax && bmin ≤ amax

def spanInBounds (t : Table K V) (lower upper : KeyBound K) : Bool :=
  let aboveLower := match lower with
    | .unbounded => true
    | .included l => decide (l ≤ t.spanMax)
    | .excluded l => decide (l < t.spanMax)
  let belowUpper := match upper with
    | .unbounded => true
    | .included u => decide (t.spanMin ≤ u)
    | .excluded u => decide (t.spanMin < u)
  aboveLower && belowUpper

-- The tables of a level a range compaction takes. Of level 0 it takes every file from the newest one
-- in the bounds on: leaving an older one behind would let it shadow newer versions.
def rangeInputs (levels : Levels K V) (i : Nat) (lower upper : KeyBound K) : List (Table K V) :=
  if i = 0
  then own ((levels.level 0).dropWhile fun t => !(!t.foreign && spanInBounds t lower upper))
  else (own (levels.level i)).filter fun t => spanInBounds t lower upper

-- What the last step of a range compaction rewrites in place: the bottom tables in the bounds that
-- were there before its pushes, whose files have ids from `floor` on.
def rangeRewrite (levels : Levels K V) (floor : Nat) (lower upper : KeyBound K) : List (Table K V) :=
  let last := levels.length - 1
  if last = 0 then []
  else (levels.level last).filter fun t => t.id < floor && !t.foreign && spanInBounds t lower upper

variable [Inhabited K]

def keySpan (tables : List (Table K V)) : K × K :=
  let lower := tables.foldl (fun (m : Option K) t =>
    match m with
    | some m => if m ≤ t.spanMin then some m else some t.spanMin
    | none => some t.spanMin) none
  let upper := tables.foldl (fun (m : Option K) t =>
    match m with
    | some m => if t.spanMax ≤ m then some m else some t.spanMax
    | none => some t.spanMax) none
  (lower.getD default, upper.getD default)

-- Adds the tables of `target` whose span overlaps that of `inputs`, none if one of them is a mount.
def gatherTarget (levels : Levels K V) (target : Nat) (inputs : List (Table K V)) :
    Option (List (Table K V)) :=
  let (minKey, maxKey) := keySpan inputs
  let hits := (levels.level target).filter fun th =>
    rangesOverlap th.spanMin th.spanMax minKey maxKey
  if hits.any Table.foreign then none else some (inputs ++ hits)

def pushOldest (levels : Levels K V) (count : Nat) : Option (List (Table K V)) :=
  let inputs := levels.oldestWindow count
  if inputs.isEmpty then none else levels.gatherTarget 1 inputs

def pushTable (levels : Levels K V) (i : Nat) (pick : Table K V) : Option (List (Table K V)) :=
  levels.gatherTarget (i + 1) [pick]

-- The inputs of an in-place rewrite around a table of the bottom level. A level 0 is rewritten as a
-- whole, because its files overlap.
def rewriteTable (levels : Levels K V) (i : Nat) (pick : Table K V) : List (Table K V) :=
  if i = 0 then own (levels.level 0) else [pick]

-- The inputs of a manual compaction of level `i` into `target`: the level and the tables of `target`
-- whose points overlap its span. None are taken if one of those is a mount.
def compactInto (levels : Levels K V) (i target : Nat) : List (Table K V) :=
  let inputs := own (levels.level i)
  if inputs.isEmpty then [] else
  let (minKey, maxKey) := keySpan inputs
  let hits := if target ≠ i
    then (levels.level target).filter fun th => rangesOverlap th.minKey th.maxKey minKey maxKey
    else []
  if hits.any Table.foreign then [] else inputs ++ hits

def rangePush (levels : Levels K V) (i : Nat) (lower upper : KeyBound K) :
    Option (List (Table K V)) :=
  let inputs := levels.rangeInputs i lower upper
  if inputs.isEmpty then none else levels.gatherTarget (i + 1) inputs

end Levels

structure Config (K V : Type) where
  l1FileCountTrigger : Nat
  maxSubcompactions : Nat
  targetFileSize : Nat
  bytewise : Bool
  partitioner : PartitionResolver K
  filter : Option (K → V → Bool)
  mergeOperator : Option (MergeOperator K V)
  enableMergeFolding : Bool
  length : K → V → Nat
  bytes : Table K V → Nat

-- Where a job comes from decides its inputs and whether it may run in several spans. A picked table
-- is named by its place among the tables of the level this database may rewrite.
inductive Source (K : Type)
  | capacity (i pick : Nat)
  | table (i pick : Nat)
  | sweep (i : Nat)
  | sweepBottom
  | rangePush (i : Nat) (lower upper : KeyBound K)
  | rangeRewrite (floor : Nat) (lower upper : KeyBound K)
  deriving DecidableEq, Repr

namespace Source

variable {K V : Type}

def target (levels : Levels K V) : Source K → Nat
  | capacity i _ | sweep i | rangePush i _ _ => i + 1
  | table i _ => if levels.targetIsBottom i then i else i + 1
  | sweepBottom | rangeRewrite _ _ _ => levels.length - 1

-- The jobs that lock only the range they rewrite are those that may run in several spans.
def bounded : Source K → Bool
  | capacity _ _ | table _ _ => true
  | _ => false

variable [LinearOrder K] [Inhabited K]

-- Of level 0 the oldest files go first, whichever table is picked.
def push (cfg : Config K V) (levels : Levels K V) (i : Nat) (pick : Table K V) :
    Option (List (Table K V)) :=
  if i = 0 then levels.pushOldest (max cfg.l1FileCountTrigger 1) else levels.pushTable i pick

def inputs (cfg : Config K V) (levels : Levels K V) : Source K → Option (List (Table K V))
  | capacity i pick => do
    push cfg levels i (← (Levels.own (levels.level i))[pick]?)
  | table i pick => do
    let pick ← (Levels.own (levels.level i))[pick]?
    if levels.targetIsBottom i then some (levels.rewriteTable i pick) else push cfg levels i pick
  | sweep i =>
    if levels.length ≤ i + 1 then none else some (levels.compactInto i (i + 1))
  | sweepBottom =>
    some (levels.compactInto (levels.length - 1) (levels.length - 1))
  | rangePush i lower upper =>
    if max levels.length 2 ≤ i + 1 then none else levels.rangePush i lower upper
  | rangeRewrite floor lower upper => some (levels.rangeRewrite floor lower upper)

end Source

end OndaDb

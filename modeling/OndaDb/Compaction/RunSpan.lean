import OndaDb.Compaction.Basic

namespace OndaDb

variable {K V : Type} [LinearOrder K] [Inhabited K] [Inhabited V]

def retainedFragmentSeqs (seqs : List Nat) (oldestSnapshot : Nat) (droppable : Bool) : List Nat :=
  seqs.filter (oldestSnapshot < ·) ++
    match seqs.find? (· ≤ oldestSnapshot) with
    | some newestOld => if droppable then [] else [newestOld]
    | none => []

def spanEdges (lower upper : KeyBound K) : Option K × Option K :=
  let lo := match lower with
    | .unbounded => none
    | .included k | .excluded k => some k
  let hi := match upper with
    | .excluded k => some k
    | .included _ | .unbounded => none
  (lo, hi)

def seekLower (lower : KeyBound K) (entries : List (Version K V)) : List (Version K V) :=
  match lower with
  | .unbounded => entries
  | .included k => entries.dropWhile (·.key < k)
  | .excluded k =>
    -- `(k, 0)` is the last version of `k`; one step past it leaves the whole key behind.
    match entries.dropWhile (fun v => v.key < k ∨ v.key = k ∧ 0 < v.seq) with
    | [] => []
    | v :: vs => if v.key = k then vs else v :: vs

def pastUpper (upper : KeyBound K) (key : K) : Bool :=
  match upper with
  | .unbounded => false
  | .excluded k => k ≤ key
  | .included k => k < key

-- An operand suffix of one key at or below the oldest snapshot, newest first, that waits for its
-- base.
structure PendingFold (K V : Type) where
  key : K
  newestSeq : Nat
  operands : List (Nat × V)

namespace FrozenJob

def mountOverlaps (job : FrozenJob K V) (start stop : K) : Bool :=
  job.foreignSpans.any fun (lo, hi) => lo < stop ∧ start ≤ hi

def covering (job : FrozenJob K V) (lower upper : KeyBound K) : List (Fragment K) :=
  fragmentSpans job.ranges (spanEdges lower upper).1 (spanEdges lower upper).2

def retainedFragment (job : FrozenJob K V) (f : Fragment K) : Option (Fragment K) :=
  let droppable := job.bottom && !job.mountOverlaps f.start f.stop
  let seqs := retainedFragmentSeqs f.seqs job.oldestSnapshot droppable
  if seqs = [] then none else some { f with seqs := seqs }

def retained (job : FrozenJob K V) (lower upper : KeyBound K) : List (Fragment K) :=
  (job.covering lower upper).filterMap job.retainedFragment

def masks (job : FrozenJob K V) (covering : List (Fragment K)) (v : Version K V) : Bool :=
  (coveringSeqIn covering v.key job.oldestSnapshot).any (v.seq < ·)

def foldable (job : FrozenJob K V) (v : Version K V) : Bool :=
  job.mergeFold.isSome && v.seq ≤ job.oldestSnapshot

def filterRemoves (job : FrozenJob K V) (key : K) (value : V) : Bool :=
  job.filter.any (· key value)

end FrozenJob

def emitOperands (p : PendingFold K V) : List (Version K V) :=
  p.operands.map fun (seq, operand) => ⟨p.key, seq, 0, .merge, operand⟩

def emitFold (job : FrozenJob K V) (p : PendingFold K V) (base : Option V) : List (Version K V) :=
  match job.mergeFold with
  | none => [] -- A pending fold exists only when the job may fold.
  | some op =>
    let folded := op.fullMerge p.key base (p.operands.map Prod.snd).reverse
    if job.filterRemoves p.key folded then
      if job.bottom then [] else [⟨p.key, p.newestSeq, 0, .delete, default⟩]
    else [⟨p.key, p.newestSeq, 0, .put, folded⟩]

def flushPending (job : FrozenJob K V) : Option (PendingFold K V) → List (Version K V)
  | none => []
  | some p => if job.bottom then emitFold job p none else emitOperands p

def emitVersion (job : FrozenJob K V) (v : Version K V) (eligible : Bool) : List (Version K V) :=
  if eligible && job.filterRemoves v.key v.value then
    if job.bottom then [] else [{ v with kind := .delete }]
  else [v]

-- The state of the merge loop. Its functions return the versions the loop writes, in order, and the
-- state after it.
structure SpanState (K V : Type) where
  retention : VersionRetention K
  pending : Option (PendingFold K V)
  prev : Option (K × Nat)

namespace SpanState

def start : SpanState K V where
  retention := .new
  pending := none
  prev := none

def keep (job : FrozenJob K V) (s : SpanState K V) (v : Version K V) (eligible : Bool) :
    List (Version K V) × SpanState K V :=
  if job.foldable v ∧ v.isMerge then
    let p := s.pending.getD ⟨v.key, v.seq, []⟩
    ([], { s with pending := some { p with operands := p.operands ++ [(v.seq, v.value)] } })
  else match s.pending with
    | none => (emitVersion job v eligible, s)
    | some p =>
      let s := { s with pending := none }
      if job.foldable v ∧ v.ttl = 0
      then (emitFold job p (if v.tombstone then none else some v.value), s)
      else (emitOperands p ++ emitVersion job v eligible, s)

def enter (job : FrozenJob K V) (s : SpanState K V) (key : K) :
    List (Version K V) × SpanState K V :=
  if s.pending.any (·.key ≠ key)
  then (flushPending job s.pending, { s with pending := none })
  else ([], s)

def retain (job : FrozenJob K V) (covering : List (Fragment K)) (s : SpanState K V)
    (v : Version K V) : List (Version K V) × SpanState K V :=
  if job.masks covering v then ([], s) else
  match s.retention.decide job v with
  | (.drop, r) => ([], { s with retention := r })
  | (.keep eligible, r) => { s with retention := r }.keep job v eligible

def accept (job : FrozenJob K V) (covering : List (Fragment K)) (s : SpanState K V)
    (v : Version K V) : List (Version K V) × SpanState K V :=
  let (ws₁, s) := s.enter job v.key
  let (ws₂, s) := s.retain job covering v
  (ws₁ ++ ws₂, s)

-- One entry of the merged input stream. The second copy of a version two inputs hold is dropped.
def step (job : FrozenJob K V) (covering : List (Fragment K)) (s : SpanState K V) (v : Version K V) :
    List (Version K V) × SpanState K V :=
  if s.prev = some (v.key, v.seq) then ([], s)
  else { s with prev := some (v.key, v.seq) }.accept job covering v

def run (job : FrozenJob K V) (covering : List (Fragment K)) (s : SpanState K V) :
    List (Version K V) → List (Version K V)
  | [] => flushPending job s.pending
  | v :: vs => (s.step job covering v).1 ++ run job covering (s.step job covering v).2 vs

end SpanState

def mergedInputs (inputs : List (Table K V)) (lower upper : KeyBound K) : List (Version K V) :=
  KMerge.all Version.Before (inputs.map fun t => seekLower lower t.entries)
    |>.takeWhile (fun v => !pastUpper upper v.key)

def spanVersions (job : FrozenJob K V) (inputs : List (Table K V)) (lower upper : KeyBound K) :
    List (Version K V) :=
  SpanState.start.run job (job.covering lower upper) (mergedInputs inputs lower upper)

def runSpan (job : FrozenJob K V) (inputs : List (Table K V)) (lower upper : KeyBound K) :
    List (Table K V) :=
  spanVersions job inputs lower upper
    |>.foldl (OutputBuilder.write job) (.new (job.retained lower upper) (spanEdges lower upper).2)
    |>.finish

def collectInputRanges (inputs : List (Table K V)) : List (Span K) :=
  inputs.flatMap fun t => spansOfFragments t.fragments

end OndaDb

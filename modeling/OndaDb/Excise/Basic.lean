import OndaDb.Error
import OndaDb.Tree

namespace OndaDb.Excise

variable {K V : Type} [LinearOrder K]

-- One durable fragment, reduced to its interval and the one sequence that matters, with the table
-- that owns it.
structure Cover (K : Type) where
  start : K
  stop : K
  seq : Nat
  owner : Nat
  deriving DecidableEq, Repr

structure Candidate (K V : Type) where
  table : Table K V
  owners : List Nat

-- A sequence above the oldest snapshot is a delete some reader cannot see yet.
def Cover.ofFragment (oldest owner : Nat) (f : Fragment K) : Option (Cover K) :=
  (f.seqs.filter (· ≤ oldest)).max?.map fun seq => ⟨f.start, f.stop, seq, owner⟩

-- The owners and the reach once the cover is taken up. It counts only if it reaches further.
def Cover.extend (c : Cover K) (owners : List Nat) : Option K → List Nat × K
  | none => (owners ++ [c.owner], c.stop)
  | some r => if r < c.stop then (owners ++ [c.owner], c.stop) else (owners, r)

def covers (tables : List (Table K V)) (oldest : Nat) : List (Cover K) :=
  tables.filter Table.hasRanges
    |>.flatMap (fun t => t.fragments.filterMap (Cover.ofFragment oldest t.id))
    |>.insertionSort fun a b => a.start ≤ b.start

-- The owners of a gap-free union of covers over `[minKey, maxKey]`. The pass keeps the exclusive
-- end `reach` of what is covered so far, none until the first cover lands.
def coveringOwners (covers : List (Cover K)) (minKey maxKey : K) (tableMaxSeq : Nat) :
    Option (List Nat) :=
  go [] none covers
where
  go (owners : List Nat) (reach : Option K) : List (Cover K) → Option (List Nat)
    | [] => none
    | c :: cs =>
      if c.seq ≤ tableMaxSeq then go owners reach cs
      else if c.stop ≤ minKey then go owners reach cs
      else if reach.getD minKey < c.start then none
      else
        let next := c.extend owners reach
        if maxKey < next.2
        then some (next.1.insertionSort (· ≤ ·)).dedup
        else go next.1 (some next.2) cs

def vetoed (tree : Tree K V) (t : Table K V) : Bool :=
  t.foreign || t.tier.isSome ||
    tree.tables.any fun u => u.foreign && t.spanMin ≤ u.spanMax && u.spanMin ≤ t.spanMax

def offenders (cs : List (Candidate K V)) : List Nat :=
  (cs.flatMap Candidate.owners).filter fun id => id ∈ cs.map (·.table.id)

-- Removes the candidates that own a cover of a candidate until there is none. Every pass but the
-- last removes one, so that `fuel` passes are enough for as many candidates.
def settle : Nat → List (Candidate K V) → List (Candidate K V)
  | 0,        cs => cs
  | fuel + 1, cs =>
    if offenders cs = [] then cs
    else settle fuel (cs.filter fun c => c.table.id ∉ offenders cs)

def candidates (tree : Tree K V) (oldest : Nat) : List (Candidate K V) :=
  tree.tables.filterMap fun t =>
    if t.hasRanges || vetoed tree t then none
    else (coveringOwners (covers tree.tables oldest) t.minKey t.maxKey t.maxSeq).map fun owners =>
      ⟨t, owners⟩

def plan (tree : Tree K V) (oldest : Nat) : List (Candidate K V) :=
  if !tree.tables.any Table.hasRanges then []
  else if covers tree.tables oldest = [] then []
  else settle (candidates tree oldest).length (candidates tree oldest)

-- The tables that are dropped: those the plan made without a lock and the one made under it agree on.
def doomed (planned : List (Candidate K V)) (tree : Tree K V) (oldest : Nat) : List Nat :=
  (planned.filter fun c => c.table.id ∈ (plan tree oldest).map (·.table.id)).map (·.table.id)

end OndaDb.Excise

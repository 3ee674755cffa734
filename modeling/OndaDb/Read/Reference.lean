import OndaDb.Lib.History
import OndaDb.RangeTombstone.Theorems.FragmentSpans
import OndaDb.Version

namespace OndaDb

variable {K V : Type}

-- The versions and range fragments some sources hold, newest source first.
structure Data (K V : Type) where
  versions : List (Version K V)
  fragments : List (Fragment K)

instance : Append (Data K V) where
  append d₁ d₂ := ⟨d₁.versions ++ d₂.versions, d₁.fragments ++ d₂.fragments⟩

def Data.empty : Data K V :=
  ⟨[], []⟩

def Version.link (now : Int) (v : Version K V) : Link V :=
  if v.isMerge then .operand v.value
  else .base (if v.tombstone || v.expired now then none else some v.value)

-- One version of a key gathered while resolving a merge chain. A deleted or expired base has no
-- value.
structure ChainVersion (V : Type) where
  seq : Nat
  merge : Bool
  value : Option V

namespace ChainVersion

def ofVersion (now : Int) (v : Version K V) : ChainVersion V where
  seq := v.seq
  merge := v.isMerge
  value := if v.isMerge then some v.value
           else if v.tombstone || v.expired now then none else some v.value

-- A range delete is, for one key, a deleted base at its sequence.
def rangeFloor (seq : Nat) : ChainVersion V where
  seq := seq
  merge := false
  value := none

-- Collects the operands, newest first, until the first base. Of two copies of one sequence the
-- first counts.
def collect [Inhabited V] : Option Nat → List (ChainVersion V) → List V × Option V
  | _,    [] => ([], none)
  | last, v :: vs =>
    if last = some v.seq then collect last vs
    else if v.merge
      then let (operands, existing) := collect (some v.seq) vs
           (v.value.getD default :: operands, existing)
      else ([], v.value)

end ChainVersion

def MergeOperator.resolve (op : MergeOperator K V) (key : K) (operands : List V)
    (existing : Option V) : Option V :=
  if operands.isEmpty then existing else some (op.fullMerge key existing operands.reverse)

def resolveChain (op : Option (MergeOperator K V)) (key : K) (c : List V × Option (Option V)) :
    Option V :=
  match op with
  | none => c.2.join
  | some op => op.resolve key c.1 c.2.join

def foldChain [Inhabited V] (op : MergeOperator K V) (key : K) (versions : List (ChainVersion V)) :
    Option V :=
  -- The sort is stable: equal sequences keep the order in which they were gathered.
  let (operands, existing) :=
    ChainVersion.collect none (versions.insertionSort fun v w => w.seq ≤ v.seq)
  op.resolve key operands existing

namespace Data

variable [LinearOrder K]

def visible (d : Data K V) (key : K) (readSeq : Nat) : List (Version K V) :=
  d.versions.filter fun v => v.key = key ∧ v.seq ≤ readSeq

def newest (d : Data K V) (key : K) (readSeq : Nat) : Option (Version K V) :=
  (d.visible key readSeq).find? fun v => (d.visible key readSeq).all (·.seq ≤ v.seq)

def newestCover (d : Data K V) (key : K) (readSeq : Nat) : Option Nat :=
  (d.fragments.filter (·.Contains key)).flatMap Fragment.seqs |>.filter (· ≤ readSeq) |>.max?

def pointRead (d : Data K V) (key : K) (readSeq : Nat) (now : Int) : Option V :=
  match d.newest key readSeq with
  | none => none
  | some v =>
    if v.tombstone || v.expired now || (d.newestCover key readSeq).any (v.seq < ·) then none
    else some v.value

def mergedRead [Inhabited V] (op : MergeOperator K V) (d : Data K V) (key : K) (readSeq : Nat)
    (now : Int) : Option V :=
  foldChain op key ((d.newestCover key readSeq).toList.map ChainVersion.rangeFloor ++
    (d.visible key readSeq).map (ChainVersion.ofVersion now))

def read [Inhabited V] (op : Option (MergeOperator K V)) (d : Data K V) (key : K) (readSeq : Nat)
    (now : Int) : Option V :=
  match op with
  | none => d.pointRead key readSeq now
  | some op => d.mergedRead op key readSeq now

def keys (d : Data K V) : List K :=
  (d.versions.map Version.key).dedup.insertionSort (· ≤ ·)

def scan [Inhabited V] (op : Option (MergeOperator K V)) (d : Data K V) (bounds : K → Bool)
    (readSeq : Nat) (now : Int) : List (K × V) :=
  (d.keys.filter bounds).filterMap fun k => (d.read op k readSeq now).map (k, ·)

def version (d : Data K V) (key : K) (seq : Nat) : Option (Version K V) :=
  d.versions.find? fun v => v.key = key ∧ v.seq = seq

-- The history of a key. At one sequence a version shadows a range tombstone.
def history (d : Data K V) (now : Int) (key : K) : History V := fun s =>
  ((d.version key s).map (Version.link now)).or
    (if Covered d.fragments key s then some (.base none) else none)

end Data

end OndaDb

import OndaDb.Txn.Basic

namespace OndaDb

variable {K V : Type} [LinearOrder K] [Inhabited V] (hash : Nat → K → Nat)

-- What the buffer holds for a key of a merge family: the last base, where `some none` is a deletion,
-- and the operands after it, oldest first.
structure BufferedChain (V : Type) where
  base : Option (Option V)
  operands : List V
  deriving DecidableEq, Repr

inductive PlannedRead (V : Type)
  | buffered (value : V)
  | missing
  | store (readSeq : Nat)
  deriving DecidableEq, Repr

def WriteEntry.value (w : WriteEntry K V) : V :=
  match w.op with
  | .point _ value .. => value
  | .range .. => default

-- Follows a chain of the index to the first position that `found` accepts. The positions decrease,
-- so that there are no more of them than writes.
def WriteIndex.walk (prev : List (Option Nat)) (found : Nat → Bool) : Nat → Option Nat → Option Nat
  | _,        none => none
  | 0,        some _ => none
  | fuel + 1, some i => if found i then some i else walk prev found fuel prev[i]?.join

namespace Txn

variable (t : Txn K V)

def ensureWriteIndex : Txn K V :=
  if t.writeIndex.isNone ∧ t.writeIndexMin ≤ t.writes.length
  then { t with writeIndex := some (.build hash t.writes) }
  else t

def newestPointWrite (cf : Nat) (key : K) : Option Nat :=
  let found i := t.writes[i]?.any (·.writes cf key)
  match t.writeIndex with
  | some index => WriteIndex.walk index.prev found index.prev.length (index.newest.lookup (hash cf key))
  | none => (List.range t.writes.length).reverse.find? found

def bufferedRanges : List (WriteEntry K V) :=
  t.rangeWrites.filterMap (t.writes[·]?)

def ownRangeCovers (cf : Nat) (key : K) : Bool :=
  t.bufferedRanges.any (·.covers cf key)

def BufferedChain.step (c : Option (BufferedChain V)) (w : WriteEntry K V) : Option (BufferedChain V) :=
  let c := c.getD ⟨none, []⟩
  if w.isMerge then some { c with operands := c.operands ++ [w.value] }
  else if w.tombstone then some ⟨some none, []⟩
  else some ⟨some (some w.value), []⟩

def indexedChain.collect (prev : List (Option Nat)) (cf : Nat) (key : K) :
    Nat → Option Nat → Option (BufferedChain V)
  | _,        none => none
  | 0,        some _ => none
  | fuel + 1, some i =>
    match t.writes[i]? with
    | none => none
    | some w =>
      if !w.writes cf key then collect prev cf key fuel prev[i]?.join
      else if w.isMerge then
        let rest := (collect prev cf key fuel prev[i]?.join).getD ⟨none, []⟩
        some { rest with operands := rest.operands ++ [w.value] }
      else some ⟨some (if w.tombstone then none else some w.value), []⟩

def indexedChain (index : WriteIndex) (cf : Nat) (key : K) : Option (BufferedChain V) :=
  indexedChain.collect t index.prev cf key index.prev.length (index.newest.lookup (hash cf key))

def bufferedChain (cf : Nat) (key : K) : Option (BufferedChain V) :=
  match t.writeIndex with
  | some index => t.indexedChain hash index cf key
  | none => (t.writes.filter (·.writes cf key)).foldl BufferedChain.step none

-- Records a read of the store and returns the sequence to read at. Levels without a snapshot read at
-- `floor`.
def noteStoreRead (floor cf : Nat) (key : K) : Txn K V × Nat :=
  let t' := if t.isolation = .serializable ∧ (cf, key) ∉ t.readLog
    then { t with readLog := t.readLog ++ [(cf, key)] }
    else t
  (t', if t.fixed then t.readSeq else floor)

def foldBuffered (op : MergeOperator K V) (key : K) (committed : Option V) (operands : List V) : V :=
  op.fullMerge key committed operands

def planPointRead (floor cf : Nat) (key : K) : Txn K V × PlannedRead V :=
  match t.newestPointWrite hash cf key with
  | some i =>
    match t.writes[i]? with
    | some w => (t, if w.tombstone then .missing else .buffered w.value)
    | none => (t, .missing)
  | none =>
    if t.ownRangeCovers cf key then (t, .missing)
    else
      let (t, readSeq) := t.noteStoreRead floor cf key
      (t, .store readSeq)

-- What the store answers at a sequence. The error of a missing key is `none` here.
abbrev StoreRead (K V : Type) := K → Nat → Option V

def orNotFound (v : Option V) : Except OndaError V :=
  match v with
  | some v => .ok v
  | none => .error .notFound

def finishRead (store : StoreRead K V) (key : K) :
    Txn K V × PlannedRead V → Txn K V × Except OndaError V
  | (t, .buffered v) => (t, .ok v)
  | (t, .missing) => (t, .error .notFound)
  | (t, .store rs) => (t, orNotFound (store key rs))

def get (store : StoreRead K V) (floor : Nat) (cf : Family K V) (key : K) :
    Txn K V × Except OndaError V :=
  let t := t.ensureWriteIndex hash
  let plain := finishRead store key (t.planPointRead hash floor cf.id key)
  match cf.mergeOp with
  | none => plain
  | some op =>
    match t.bufferedChain hash cf.id key with
    | none => plain
    | some c =>
      match c.base with
      | some base =>
        if c.operands.isEmpty then (t, orNotFound base)
        else (t, .ok (foldBuffered op key base c.operands))
      | none =>
        let (t, rs) := t.noteStoreRead floor cf.id key
        (t, .ok (foldBuffered op key (store key rs) c.operands))

def getInto (store : StoreRead K V) (bytes : V → List UInt8) (floor : Nat) (cf : Family K V) (key : K)
    (out : List UInt8) : Txn K V × List UInt8 × Except OndaError Nat :=
  let t := t.ensureWriteIndex hash
  let append : Txn K V × Except OndaError V → Txn K V × List UInt8 × Except OndaError Nat
    | (t, .ok v) => (t, out ++ bytes v, .ok (bytes v).length)
    | (t, .error e) => (t, out, .error e)
  if cf.mergeOp.isSome ∧ (t.bufferedChain hash cf.id key).isSome
  then append (t.get hash store floor cf key)
  else append (finishRead store key (t.planPointRead hash floor cf.id key))

-- Resolves the keys the buffer decides and notes the others, `none` in the answers.
def multiGet.plan (floor cf : Nat) : Txn K V → List K → Txn K V × List (Option (Except OndaError V))
  | t, [] => (t, [])
  | t, key :: keys =>
    match t.planPointRead hash floor cf key with
    | (t, .buffered v) => let (t, out) := plan floor cf t keys; (t, some (.ok v) :: out)
    | (t, .missing) => let (t, out) := plan floor cf t keys; (t, some (.error .notFound) :: out)
    | (t, .store _) => let (t, out) := plan floor cf t keys; (t, none :: out)

def multiGet.each (store : StoreRead K V) (floor : Nat) (cf : Family K V) :
    Txn K V → List K → Txn K V × List (Except OndaError V)
  | t, [] => (t, [])
  | t, key :: keys =>
    let (t, r) := t.get hash store floor cf key
    let (t, rs) := each store floor cf t keys
    (t, r :: rs)

-- The keys left to the store are read as one batch, at one sequence.
def multiGet (store : StoreRead K V) (floor : Nat) (cf : Family K V) (keys : List K) :
    Txn K V × List (Except OndaError V) :=
  let t := t.ensureWriteIndex hash
  if cf.mergeOp.isSome ∧ t.writes ≠ [] then multiGet.each hash store floor cf t keys
  else
    let (t, out) := multiGet.plan hash floor cf.id t keys
    let rs := if t.fixed then t.readSeq else floor
    (t, List.zipWith (fun key r => r.getD (orNotFound (store key rs))) keys out)

end Txn

end OndaDb

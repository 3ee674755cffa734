import OndaDb.Encoding
import OndaDb.Error
import OndaDb.Lib.Map
import Mathlib.Data.List.Sort

-- The durable catalog and the edits that change it.
namespace OndaDb.Catalog

namespace Cap

def rangeDeletes  : UInt64 := 0x04
def manifestEdits : UInt64 := 0x10
def periodicAge   : UInt64 := 0x20
def walFloor      : UInt64 := 0x800
def waves08Bodies : UInt64 := 0x400
def known         : UInt64 := 0x87F

def hex (n : Nat) : String :=
  "0x" ++ String.ofList (Nat.toDigits 16 n)

def check (caps : UInt64) : Except OndaError Unit :=
  if caps &&& ~~~known ≠ 0 then
    .error (.unsupportedFormat
      ("manifest capabilities " ++ hex caps.toNat ++ " outside known mask " ++ hex known.toNat))
  else .ok ()

end Cap

inductive WalLayout
  | perColumnFamily
  | unified
  deriving DecidableEq, Repr

-- One table. The four range fields say nothing where `rangeCount` is 0.
structure SstMeta where
  id : UInt64
  level : UInt32 := 0
  numEntries : UInt64 := 0
  numTombstones : UInt64 := 0
  maxSeq : UInt64 := 0
  klogSize : UInt64 := 0
  vlogSize : UInt64 := 0
  minKey : Bytes := []
  maxKey : Bytes := []
  partition : Option String := none
  tier : Option String := none
  maxEntryTime : Option Int64 := none
  object : Option String := none
  lastCompactionTime : Option Int64 := none
  rangeCount : UInt64 := 0
  rangeMinSeq : UInt64 := 0
  rangeMaxSeq : UInt64 := 0
  rangeMinKey : Option Bytes := none
  rangeMaxKey : Option Bytes := none
  tableCaps : Option UInt64 := none
  deriving DecidableEq

def fnv1a64 (b : Bytes) : UInt64 :=
  b.foldl (fun h x => (h ^^^ x.toUInt64) * 0x100000001b3) 0xcbf29ce484222325

def utf8 (s : String) : Bytes :=
  s.toUTF8.data.toList

def cfId (name : String) : UInt64 :=
  fnv1a64 (utf8 name)

structure CfManifest where
  name : String
  config : Bytes
  sstables : List SstMeta
  unifiedId : Option UInt64
  deriving DecidableEq

namespace CfManifest

def effectiveUnifiedId (cf : CfManifest) : UInt64 :=
  cf.unifiedId.getD (cfId cf.name)

def storedUnifiedId (cf : CfManifest) : Option UInt64 :=
  cf.unifiedId.filter (· ≠ cfId cf.name)

end CfManifest

structure Manifest where
  nextFileId : UInt64 := 1
  globalSeq : UInt64 := 0
  cfs : List CfManifest := []
  walLayout : WalLayout := .perColumnFamily
  instanceNonce : Option UInt64 := none
  caps : UInt64 := 0
  generation : UInt64 := 0
  appliedThrough : UInt64 := 0
  nextEditId : UInt64 := 1
  walFloor : UInt64 := 0
  deriving DecidableEq

-- The fields of a published table that may change; `none` leaves one alone.
structure TableUpdate where
  level : Option UInt32 := none
  tier : Option (Option String) := none
  object : Option (Option String) := none
  partition : Option (Option String) := none
  maxEntryTime : Option (Option Int64) := none
  lastCompactionTime : Option (Option Int64) := none
  deriving DecidableEq

namespace TableUpdate

def mask (u : TableUpdate) : UInt64 :=
  (if u.level.isSome then 0x01 else 0) ||| (if u.tier.isSome then 0x02 else 0) |||
    (if u.object.isSome then 0x04 else 0) ||| (if u.partition.isSome then 0x08 else 0) |||
    (if u.maxEntryTime.isSome then 0x10 else 0) ||| (if u.lastCompactionTime.isSome then 0x20 else 0)

def relocation (tier object : Option String) : TableUpdate :=
  { tier := some tier, object := some object }

def applyTo (u : TableUpdate) (sst : SstMeta) : SstMeta :=
  { sst with
    level := u.level.getD sst.level
    tier := u.tier.getD sst.tier
    object := u.object.getD sst.object
    partition := u.partition.getD sst.partition
    maxEntryTime := u.maxEntryTime.getD sst.maxEntryTime
    lastCompactionTime := u.lastCompactionTime.getD sst.lastCompactionTime }

end TableUpdate

inductive Op
  | addTable (cf : String) (table : SstMeta)
  | removeTable (cf : String) (id : UInt64) (expectedLevel : UInt32)
  | updateTable (cf : String) (id : UInt64) (update : TableUpdate)
  | createCf (name : String) (config : Bytes)
  | dropCf (name : String)
  | setCfConfig (name : String) (config : Bytes)
  | setNextFileId (v : UInt64)
  | setGlobalSeq (v : UInt64)
  | setWalLayout (layout : WalLayout)
  | setNonce (nonce : UInt64)
  | setCapability (bits : UInt64)
  | removeTables (cf : String) (ids : List UInt64)
  | setCfUnifiedId (name : String) (id : UInt64)
  | setWalFloor (generation : UInt64)
  deriving DecidableEq

structure VersionEdit where
  ops : List Op
  deriving DecidableEq

def modifyFirst (p : α → Bool) (f : α → α) : List α → List α
  | [] => []
  | a :: as => if p a then f a :: as else a :: modifyFirst p f as

namespace Manifest

def family (m : Manifest) (name : String) : Option CfManifest :=
  m.cfs.find? (·.name = name)

def modifyCf (m : Manifest) (name : String) (f : CfManifest → CfManifest) : Manifest :=
  { m with cfs := modifyFirst (·.name = name) f m.cfs }

end Manifest

-- L0 is kept newest first; the position in a deeper level has no meaning.
def CfManifest.addTable (t : SstMeta) (cf : CfManifest) : CfManifest :=
  { cf with sstables := if t.level = 0 then t :: cf.sstables else cf.sstables ++ [t] }

def CfManifest.retain (keep : SstMeta → Bool) (cf : CfManifest) : CfManifest :=
  { cf with sstables := cf.sstables.filter keep }

-- The second pass over an edit; every precondition has been checked.
def mutate (m : Manifest) : Op → Manifest
  | .addTable cf t => m.modifyCf cf (.addTable t)
  | .removeTable cf id _ => m.modifyCf cf (.retain (·.id ≠ id))
  | .updateTable cf id u => m.modifyCf cf fun f => { f with sstables := modifyFirst (·.id = id) u.applyTo f.sstables }
  | .createCf name config => { m with cfs := m.cfs ++ [⟨name, config, [], none⟩] }
  | .dropCf name => { m with cfs := m.cfs.filter (·.name ≠ name) }
  | .setCfConfig name config => m.modifyCf name fun f => { f with config }
  | .setNextFileId v => { m with nextFileId := v }
  | .setGlobalSeq v => { m with globalSeq := v }
  | .setWalLayout layout => { m with walLayout := layout }
  | .setNonce nonce => { m with instanceNonce := some nonce }
  | .setCapability bits => { m with caps := m.caps ||| bits }
  | .removeTables cf ids => m.modifyCf cf (.retain (·.id ∉ ids))
  -- The derived id is stored as no id.
  | .setCfUnifiedId name id => m.modifyCf name fun f => { f with unifiedId := if id ≠ cfId name then some id else none }
  | .setWalFloor generation => { m with walFloor := generation }

structure CfState where
  «exists» : Bool
  tables : Map UInt64 UInt32
  deriving DecidableEq

namespace CfState

def absent : CfState := ⟨false, ∅⟩

def ofTables (ssts : List SstMeta) : CfState where
  «exists» := true
  tables := ssts.foldl (fun ts s => ts.insert s.id s.level) ∅

end CfState

-- The catalog an edit is checked against before anything changes. With a `seed` a family is looked
-- up there when it is first touched; without one `cfs` already names every family.
structure Candidate where
  seed : Option Manifest
  cfs : Map String CfState
  nextFileId : UInt64
  globalSeq : UInt64
  walLayout : WalLayout
  instanceNonce : Option UInt64
  caps : UInt64
  walFloor : UInt64

namespace Candidate

def scalars (m : Manifest) : Candidate where
  seed := none
  cfs := ∅
  nextFileId := m.nextFileId
  globalSeq := m.globalSeq
  walLayout := m.walLayout
  instanceNonce := m.instanceNonce
  caps := m.caps
  walFloor := m.walFloor

def lazy (m : Manifest) : Candidate :=
  { scalars m with seed := some m }

def eager (m : Manifest) : Candidate :=
  { scalars m with cfs := m.cfs.foldl (fun cs cf => cs.insert cf.name (.ofTables cf.sstables)) ∅ }

def cf (c : Candidate) (name : String) : CfState :=
  (c.cfs.lookup name).getD <|
    ((c.seed.bind (·.family name)).map fun f => CfState.ofTables f.sstables).getD .absent

def setCf (c : Candidate) (name : String) (st : CfState) : Candidate :=
  { c with cfs := c.cfs.insert name st }

end Candidate

def precondition (i : Nat) (text : String) : OndaError :=
  .corruption (s!"manifest edit: op index {i}: precondition failed: " ++ text)

def CfState.removeAll (tables : Map UInt64 UInt32) (missing : UInt64 → OndaError) :
    List UInt64 → Except OndaError (Map UInt64 UInt32)
  | [] => .ok tables
  | id :: ids =>
    if (tables.lookup id).isNone then .error (missing id) else removeAll (tables.erase id) missing ids

def validateOp (c : Candidate) (i : Nat) : Op → Except OndaError Candidate
  | .addTable cf t =>
    let st := c.cf cf
    let name := cf.quote
    let id := t.id.toNat
    if !st.exists then .error (precondition i s!"AddTable: no column family {name}")
    else if (st.tables.lookup t.id).isSome then
      .error (precondition i s!"AddTable: table {id} already in {name}")
    else .ok (c.setCf cf { st with tables := st.tables.insert t.id t.level })
  | .removeTable cf id expectedLevel =>
    let st := c.cf cf
    let name := cf.quote
    let n := id.toNat
    let expected := expectedLevel.toNat
    match st.tables.lookup id with
    | none => .error (precondition i s!"RemoveTable: table {n} absent from {name}")
    | some level =>
      let found := level.toNat
      if level ≠ expectedLevel then
        .error (precondition i s!"RemoveTable: table {n} is at level {found}, not {expected}")
      else .ok (c.setCf cf { st with tables := st.tables.erase id })
  | .updateTable cf id u =>
    let st := c.cf cf
    let name := cf.quote
    let n := id.toNat
    if u.mask = 0 then .error (precondition i "UpdateTable: empty field mask")
    else match st.tables.lookup id with
    | none => .error (precondition i s!"UpdateTable: table {n} absent from {name}")
    | some level => .ok (c.setCf cf { st with tables := st.tables.insert id (u.level.getD level) })
  | .createCf name _ =>
    let quoted := name.quote
    if (c.cf name).exists then
      .error (precondition i s!"CreateCF: column family {quoted} already exists")
    else .ok (c.setCf name ⟨true, ∅⟩)
  | .dropCf name =>
    let st := c.cf name
    let quoted := name.quote
    let left := st.tables.keys.length
    if !st.exists then .error (precondition i s!"DropCF: no column family {quoted}")
    else if left ≠ 0 then
      .error (precondition i
        (s!"DropCF: {quoted} still has {left} table(s); " ++ "the same edit must remove them"))
    else .ok (c.setCf name { st with «exists» := false })
  | .setCfConfig name _ =>
    let quoted := name.quote
    if !(c.cf name).exists then .error (precondition i s!"SetCFConfig: no column family {quoted}")
    else .ok c
  | .setCfUnifiedId name _ =>
    let quoted := name.quote
    if !(c.cf name).exists then .error (precondition i s!"SetCFUnifiedId: no column family {quoted}")
    else .ok c
  | .setNextFileId v =>
    let n := v.toNat
    let current := c.nextFileId.toNat
    if v < c.nextFileId then
      .error (precondition i s!"SetNextFileID: {n} is below the current {current}")
    else .ok { c with nextFileId := v }
  | .setGlobalSeq v =>
    let n := v.toNat
    let current := c.globalSeq.toNat
    if v < c.globalSeq then
      .error (precondition i s!"SetGlobalSeq: {n} is below the current {current}")
    else .ok { c with globalSeq := v }
  | .setWalLayout layout =>
    if layout ≠ .unified ∨ c.walLayout = .unified then
      .error (precondition i "SetWalLayout: the layout flip is one-way, per-CF to unified, once")
    else .ok { c with walLayout := .unified }
  | .setNonce nonce =>
    if c.instanceNonce.isSome then
      .error (precondition i "SetNonce: the instance nonce is minted once and never changed")
    else .ok { c with instanceNonce := some nonce }
  | .setCapability bits => do
    Cap.check bits
    .ok { c with caps := c.caps ||| bits }
  | .setWalFloor generation =>
    let n := generation.toNat
    let current := c.walFloor.toNat
    if c.caps &&& Cap.walFloor = 0 then
      .error (precondition i "SetWalFloor: CAP_WAL_FLOOR is not durable")
    else if c.walLayout ≠ .unified then
      .error (precondition i "SetWalFloor: not the unified WAL layout")
    else if generation ≤ c.walFloor then
      .error (precondition i s!"SetWalFloor: {n} is not above the current {current}")
    else .ok { c with walFloor := generation }
  | .removeTables cf ids => do
    let st := c.cf cf
    let name := cf.quote
    let missing (id : UInt64) :=
      let n := id.toNat
      precondition i s!"RemoveTables: table {n} absent from {name}"
    let tables ← CfState.removeAll st.tables missing ids
    .ok (c.setCf cf { st with tables })

def validate (c : Candidate) (i : Nat) : List Op → Except OndaError Candidate
  | [] => .ok c
  | op :: ops => do
    let c ← validateOp c i op
    validate c (i + 1) ops

-- All or nothing: every op is checked before the first one is applied.
def applyEdit (m : Manifest) (edit : VersionEdit) : Except OndaError Manifest := do
  let _ ← validate (.lazy m) 0 edit.ops
  .ok (edit.ops.foldl mutate m)

def applyEditMut (m : Manifest) (edit : VersionEdit) : Manifest × Except OndaError Unit :=
  match validate (.lazy m) 0 edit.ops with
  | .error e => (m, .error e)
  | .ok _ => (edit.ops.foldl mutate m, .ok ())

-- Edits applied in place up to the first one that is rejected: how many were accepted, and the catalog.
def applyEdits (m : Manifest) : List VersionEdit → Nat × Manifest
  | [] => (0, m)
  | edit :: edits =>
    match applyEditMut m edit with
    | (m, .error _) => (0, m)
    | (m, .ok ()) => ((applyEdits m edits).1 + 1, (applyEdits m edits).2)

structure CatalogReplayer where
  manifest : Manifest
  candidate : Candidate

namespace CatalogReplayer

def new (m : Manifest) : CatalogReplayer :=
  ⟨m, .eager m⟩

def apply (r : CatalogReplayer) (edit : VersionEdit) : Except OndaError CatalogReplayer := do
  let candidate ← validate r.candidate 0 edit.ops
  .ok ⟨edit.ops.foldl mutate r.manifest, candidate⟩

def finish (r : CatalogReplayer) : Manifest :=
  r.manifest

def replay (r : CatalogReplayer) : List VersionEdit → Nat × Manifest
  | [] => (0, r.finish)
  | edit :: edits =>
    match r.apply edit with
    | .error _ => (0, r.finish)
    | .ok r => ((r.replay edits).1 + 1, (r.replay edits).2)

end CatalogReplayer

def reconciled (m : Manifest) : Manifest :=
  let tables := m.cfs.flatMap (·.sstables)
  { m with
    nextFileId := max m.nextFileId (tables.foldl (fun n t => max n t.id) 0 + 1)
    globalSeq := max m.globalSeq (tables.foldl (fun n t => max n t.maxSeq) 0) }

end OndaDb.Catalog

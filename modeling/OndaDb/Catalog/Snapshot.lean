import OndaDb.Catalog.Codec

namespace OndaDb.Catalog

open Encoding

namespace ManifestFile

def magic : Bytes := [0x59, 0x4F, 0x4C, 0x4F, 0x44, 0x42, 0x4D, 0x46]
def version : UInt32 := 1
def headerLen : Nat := 40
def onda09Magic : Nat := 0x57564D46

def unifiedWal    : UInt32 := 0x01
def instanceNonce : UInt32 := 0x02
def editLog       : UInt32 := 0x04
def walFloor      : UInt32 := 0x10
def dbKnown       : UInt32 := 0x17

def partition          : UInt64 := 0x01
def tier               : UInt64 := 0x02
def object             : UInt64 := 0x04
def maxEntryTime       : UInt64 := 0x08
def lastCompactionTime : UInt64 := 0x10
def range              : UInt64 := 0x20
def tableCaps          : UInt64 := 0x40
def sstKnown           : UInt64 := 0x7F

end ManifestFile

namespace SstMeta

-- The stamp and the range summary are written only under their capability.
def age (t : SstMeta) (caps : UInt64) : Option Int64 :=
  t.lastCompactionTime.filter fun _ => caps &&& Cap.periodicAge ≠ 0

def hasRange (t : SstMeta) (caps : UInt64) : Bool :=
  t.rangeCount > 0 ∧ caps &&& Cap.rangeDeletes ≠ 0

def flags (t : SstMeta) (caps : UInt64) : UInt64 :=
  (if t.partition.isSome then ManifestFile.partition else 0) |||
    (if t.tier.isSome then ManifestFile.tier else 0) |||
    (if t.object.isSome then ManifestFile.object else 0) |||
    (if t.maxEntryTime.isSome then ManifestFile.maxEntryTime else 0) |||
    (if (t.age caps).isSome then ManifestFile.lastCompactionTime else 0) |||
    (if t.hasRange caps then ManifestFile.range else 0) |||
    (if t.tableCaps.isSome then ManifestFile.tableCaps else 0)

def appendTime (t : Int64) : Bytes :=
  appendU64Var t.toUInt64

def appendRange (t : SstMeta) : Bytes :=
  appendU64Var t.rangeCount ++ (appendU64Var t.rangeMinSeq ++ (appendU64Var t.rangeMaxSeq ++
    (appendBytes (t.rangeMinKey.getD []) ++ appendBytes (t.rangeMaxKey.getD []))))

def encode (t : SstMeta) (caps : UInt64) : Bytes :=
  appendU64Var t.id ++ (appendU32Var t.level ++ (appendU64Var t.numEntries ++
    (appendU64Var t.numTombstones ++ (appendU64Var t.maxSeq ++ (appendU64Var t.klogSize ++
    (appendU64Var t.vlogSize ++ (appendBytes t.minKey ++ (appendBytes t.maxKey ++
    (appendU64Var (t.flags caps) ++ (t.partition.elim [] appendString ++ (t.tier.elim [] appendString ++
    (t.object.elim [] appendString ++ (t.maxEntryTime.elim [] appendTime ++
    ((t.age caps).elim [] appendTime ++ ((if t.hasRange caps then t.appendRange else []) ++
    t.tableCaps.elim [] appendU64Var)))))))))))))))

end SstMeta

def CfManifest.encode (caps : UInt64) (cf : CfManifest) : Bytes :=
  (if cf.storedUnifiedId.isSome then appendUvarint 1 else appendUvarint 0) ++
    (appendString cf.name ++ (appendBytes cf.config ++ (cf.storedUnifiedId.elim [] putU64Word ++
    (appendUvarint cf.sstables.length ++ cf.sstables.flatMap (·.encode caps)))))

namespace Manifest

def hasEditLog (m : Manifest) : Bool :=
  m.generation ≠ 0 ∨ m.appliedThrough ≠ 0 ∨ m.nextEditId ≠ 1

def dbFlags (m : Manifest) : UInt32 :=
  (if m.walLayout = .unified then ManifestFile.unifiedWal else 0) |||
    (if m.instanceNonce.isSome then ManifestFile.instanceNonce else 0) |||
    (if m.hasEditLog then ManifestFile.editLog else 0) |||
    (if m.walFloor ≠ 0 then ManifestFile.walFloor else 0)

def content (m : Manifest) : Bytes :=
  putU32 ManifestFile.version.toNat ++ (putU64Word m.caps ++ (putU32 m.dbFlags.toNat ++
    (putU64Word m.nextFileId ++ (putU64Word m.globalSeq ++ (m.instanceNonce.elim [] putU64Word ++
    ((if m.hasEditLog then putU64Word m.generation ++ (putU64Word m.appliedThrough ++ putU64Word m.nextEditId)
      else []) ++
    ((if m.walFloor ≠ 0 then putU64Word m.walFloor else []) ++
    (appendUvarint m.cfs.length ++ m.cfs.flatMap (·.encode m.caps)))))))))

def encode (crc : Bytes → UInt32) (m : Manifest) : Bytes :=
  let b := ManifestFile.magic ++ m.content
  b ++ putU32 (crc b).toNat

end Manifest

namespace Cursor

def corrupt (what : String) : OndaError :=
  .corruption ("manifest: " ++ what)

def errs : Errs where
  field := corrupt "truncated"
  varint := corrupt "malformed uvarint"
  signed := corrupt "malformed uvarint"
  utf8 := corrupt "invalid UTF-8"

def flagged (set : Bool) (r : Decoder α) : Decoder (Option α) :=
  if set then some <$> r else pure none

def time : Decoder Int64 :=
  UInt64.toInt64 <$> uvar errs

structure Range where
  count : UInt64
  minSeq : UInt64
  maxSeq : UInt64
  minKey : Bytes
  maxKey : Bytes

def range : Decoder Range := do
  let count ← uvar errs
  let minSeq ← uvar errs
  let maxSeq ← uvar errs
  let minKey ← bytes errs
  let maxKey ← bytes errs
  if count = 0 ∨ minKey = [] ∨ maxKey = [] ∨ minSeq > maxSeq then
    throw (corrupt "range summary a writer cannot produce")
  else pure ⟨count, minSeq, maxSeq, minKey, maxKey⟩

def capsWord (caps : UInt64) : Decoder UInt64 := do
  let t ← uvar errs
  if t = 0 ∨ t &&& ~~~caps ≠ 0 then
    throw (corrupt ("table capability word " ++ Cap.hex t.toNat ++ " is zero or outside the database's " ++
      Cap.hex caps.toNat))
  else pure t

def gated (caps bit : UInt64) (why : String) (r : Decoder α) : Decoder α :=
  if caps &&& bit = 0 then throw (corrupt why) else r

def sstable (caps : UInt64) : Decoder SstMeta := do
  let id ← uvar errs
  let level ← u32FromUvar errs fun _ => corrupt "table level exceeds u32"
  let numEntries ← uvar errs
  let numTombstones ← uvar errs
  let maxSeq ← uvar errs
  let klogSize ← uvar errs
  let vlogSize ← uvar errs
  let minKey ← bytes errs
  let maxKey ← bytes errs
  let flags ← uvar errs
  if flags &&& ~~~ManifestFile.sstKnown ≠ 0 then
    throw (.unsupportedFormat ("manifest table flags " ++ Cap.hex flags.toNat ++ " outside known mask " ++
      Cap.hex ManifestFile.sstKnown.toNat))
  else
    let has (bit : UInt64) : Bool := flags &&& bit ≠ 0
    let partition ← flagged (has ManifestFile.partition) (string errs)
    let tier ← flagged (has ManifestFile.tier) (string errs)
    let object ← flagged (has ManifestFile.object) (string errs)
    let maxEntryTime ← flagged (has ManifestFile.maxEntryTime) time
    let lastCompactionTime ← flagged (has ManifestFile.lastCompactionTime)
      (gated caps Cap.periodicAge "age stamp without CAP_PERIODIC_AGE" time)
    let range ← flagged (has ManifestFile.range)
      (gated caps Cap.rangeDeletes "range summary without CAP_RANGE_DELETES" range)
    let tableCaps ← flagged (has ManifestFile.tableCaps) (capsWord caps)
    pure { id, level, numEntries, numTombstones, maxSeq, klogSize, vlogSize, minKey, maxKey, partition, tier,
           maxEntryTime, object, lastCompactionTime,
           rangeCount := range.elim 0 (·.count)
           rangeMinSeq := range.elim 0 (·.minSeq)
           rangeMaxSeq := range.elim 0 (·.maxSeq)
           rangeMinKey := range.map (·.minKey)
           rangeMaxKey := range.map (·.maxKey)
           tableCaps }

def unifiedId (name : String) : Decoder UInt64 := do
  let id ← u64le errs
  if id = cfId name then throw (corrupt "a stored unified id equal to the derived one") else pure id

def columnFamily (caps : UInt64) : Decoder CfManifest := do
  let flags ← uvar errs
  if flags &&& ~~~1 ≠ 0 then
    throw (.unsupportedFormat ("manifest column-family flags " ++ Cap.hex flags.toNat ++
      " outside known mask 0x1"))
  else
    let name ← string errs
    let config ← bytes errs
    let unifiedId ← flagged (flags &&& 1 ≠ 0) (unifiedId name)
    let count ← uvar errs
    let sstables ← Reader.many (fun _ => sstable caps) 0 count.toNat
    pure ⟨name, config, sstables, unifiedId⟩

structure EditCursor where
  generation : UInt64
  appliedThrough : UInt64
  nextEditId : UInt64

def editCursor : Decoder EditCursor := do
  let generation ← u64le errs
  let appliedThrough ← u64le errs
  let nextEditId ← u64le errs
  -- `checked_add`, which fails at the largest number.
  if appliedThrough.toNat + 1 ≠ nextEditId.toNat then
    throw (corrupt "edit cursor: next_edit_id != applied_through + 1")
  else if generation = 0 ∧ appliedThrough = 0 then
    throw (corrupt "edit-log section at its empty-database default")
  else pure ⟨generation, appliedThrough, nextEditId⟩

def floor (caps : UInt64) (flags : UInt32) : Decoder UInt64 :=
  if caps &&& Cap.walFloor = 0 then throw (corrupt "WAL floor section without CAP_WAL_FLOOR")
  else if flags &&& ManifestFile.unifiedWal = 0 then
    throw (corrupt "WAL floor section without the unified WAL layout")
  else do
    let g ← u64le errs
    if g = 0 then throw (corrupt "WAL floor section at its empty default 0") else pure g

def manifest : Decoder Manifest := do
  let version ← u32le errs
  let n := version.toNat
  if version ≠ ManifestFile.version then
    throw (.unsupportedFormat s!"manifest version {n} is not implemented by this binary")
  else
    let caps ← u64le errs
    if caps &&& Cap.waves08Bodies ≠ 0 then
      throw (.unsupportedFormat
        "manifest: a wavesdb database (CAP_WAVES08_BODIES); ondaDB never opens one read-write")
    else
      StateT.lift (Cap.check caps)
      let flags ← u32le errs
      if flags &&& ~~~ManifestFile.dbKnown ≠ 0 then
        throw (.unsupportedFormat ("manifest database flags " ++ Cap.hex flags.toNat ++ " outside known mask " ++
          Cap.hex ManifestFile.dbKnown.toNat))
      else
        let has (bit : UInt32) : Bool := flags &&& bit ≠ 0
        let nextFileId ← u64le errs
        let globalSeq ← u64le errs
        let instanceNonce ← flagged (has ManifestFile.instanceNonce) (u64le errs)
        let cursor ← flagged (has ManifestFile.editLog) editCursor
        let walFloor ← flagged (has ManifestFile.walFloor) (floor caps flags)
        let count ← uvar errs
        let cfs ← Reader.many (fun _ => columnFamily caps) 0 count.toNat
        pure {
          nextFileId, globalSeq, cfs, instanceNonce, caps
          walLayout := if has ManifestFile.unifiedWal then .unified else .perColumnFamily
          generation := cursor.elim 0 (·.generation)
          appliedThrough := cursor.elim 0 (·.appliedThrough)
          nextEditId := cursor.elim 1 (·.nextEditId)
          walFloor := walFloor.getD 0 }

end Cursor

def Manifest.decode (crc : Bytes → UInt32) (data : Bytes) : Except OndaError Manifest :=
  let body := data.take (data.length - 4)
  if 4 ≤ data.length ∧ readLe (data.take 4) = ManifestFile.onda09Magic then
    .error (.unsupportedFormat
      ("manifest: an ondaDB 0.9 MANIFEST (WVMF); it is readable only through " ++
        "legacy_onda, and the database must be upgraded to yoloDB epoch 1"))
  else if data.length < 8 ∨ data.take 8 ≠ ManifestFile.magic then
    .error (Cursor.corrupt "magic is not YOLODBMF")
  else if data.length < ManifestFile.headerLen + 4 then .error (Cursor.corrupt "shorter than its header")
  else if readLe (data.drop (data.length - 4)) ≠ (crc body).toNat then
    .error (Cursor.corrupt "checksum mismatch")
  else do
    let (m, rest) ← Cursor.manifest (body.drop 8)
    if rest ≠ [] then .error (Cursor.corrupt "trailing bytes after the last column family") else .ok m

end OndaDb.Catalog

import OndaDb.Catalog.Basic
import OndaDb.Lib.Reader

-- The bytes of `MANIFEST` and of `MANIFEST-EDITS`.
namespace OndaDb.Catalog

open Encoding

def appendBytes (b : Bytes) : Bytes :=
  appendUvarint b.length ++ b

def appendString (s : String) : Bytes :=
  appendBytes (utf8 s)

def appendU64Var (x : UInt64) : Bytes :=
  appendUvarint x.toNat

def appendU32Var (x : UInt32) : Bytes :=
  appendUvarint x.toNat

def putU64Word (x : UInt64) : Bytes :=
  putU64 x.toNat

def appendOpt (enc : α → Bytes) : Option α → Bytes
  | none => [0]
  | some a => 1 :: enc a

def appendSigned (x : Int64) : Bytes :=
  appendVarint x.toInt

abbrev Decoder (α : Type) := Reader OndaError UInt8 α

structure Errs where
  field : OndaError
  varint : OndaError
  signed : OndaError
  utf8 : OndaError

section

variable (e : Errs)

def take (n : Nat) : Decoder Bytes := fun b =>
  if b.length < n then .error e.field else .ok (b.take n, b.drop n)

def word (n : Nat) : Decoder Nat :=
  readLe <$> take e n

def u64le : Decoder UInt64 :=
  (UInt64.ofNat ·) <$> word e 8

def u32le : Decoder UInt32 :=
  (UInt32.ofNat ·) <$> word e 4

def uvar : Decoder UInt64 := fun b =>
  match uvarint b with
  | none => .error e.varint
  | some (x, r) => .ok (UInt64.ofNat x, r)

def signed : Decoder Int64 := fun b =>
  match varint b with
  | none => .error e.signed
  | some (x, r) => .ok (Int64.ofInt x, r)

def u32FromUvar (tooBig : UInt64 → OndaError) : Decoder UInt32 := do
  let v ← uvar e
  if v.toNat < 2 ^ 32 then pure v.toUInt32 else throw (tooBig v)

def byte : Decoder UInt8 := do
  let b ← take e 1
  pure (b.headD 0)

def bytes : Decoder Bytes := do
  let n ← uvar e
  take e n.toNat

def string : Decoder String := do
  let raw ← bytes e
  match String.fromUTF8? ⟨raw.toArray⟩ with
  | none => throw e.utf8
  | some s => pure s

def optional (tag : UInt8 → OndaError) (r : Decoder α) : Decoder (Option α) := do
  match ← byte e with
  | 0 => pure none
  | 1 => some <$> r
  | other => throw (tag other)

end

def appendSstMeta (m : SstMeta) : Bytes :=
  appendU64Var m.id ++ (appendU32Var m.level ++ (appendU64Var m.numEntries ++
    (appendU64Var m.numTombstones ++ (appendU64Var m.maxSeq ++ (appendU64Var m.klogSize ++
    (appendU64Var m.vlogSize ++ (appendBytes m.minKey ++ (appendBytes m.maxKey ++
    (appendOpt appendString m.partition ++ (appendOpt appendString m.tier ++
    (appendOpt appendSigned m.maxEntryTime ++ (appendOpt appendString m.object ++
    (appendOpt appendSigned m.lastCompactionTime ++ (appendU64Var m.rangeCount ++
    (appendU64Var m.rangeMinSeq ++ (appendU64Var m.rangeMaxSeq ++
    (appendOpt appendBytes m.rangeMinKey ++ appendOpt appendBytes m.rangeMaxKey)))))))))))))))))

namespace TableUpdate

def append (u : TableUpdate) : Bytes :=
  u.level.elim [] appendU32Var ++ (u.tier.elim [] (appendOpt appendString) ++
    (u.object.elim [] (appendOpt appendString) ++ (u.partition.elim [] (appendOpt appendString) ++
    (u.maxEntryTime.elim [] (appendOpt appendSigned) ++
    u.lastCompactionTime.elim [] (appendOpt appendSigned)))))

end TableUpdate

namespace Op

def code : Op → Nat
  | addTable .. => 1
  | removeTable .. => 2
  | updateTable .. => 3
  | createCf .. => 4
  | dropCf .. => 5
  | setCfConfig .. => 6
  | setNextFileId .. => 7
  | setGlobalSeq .. => 8
  | setWalLayout .. => 9
  | setNonce .. => 10
  | setCapability .. => 11
  | removeTables .. => 12
  | setCfUnifiedId .. => 13
  | setWalFloor .. => 14

def maxAssignable : Nat := 63

def body : Op → Bytes
  | addTable cf t => appendString cf ++ appendSstMeta t
  | removeTable cf id expectedLevel => appendString cf ++ (appendU64Var id ++ appendU32Var expectedLevel)
  | updateTable cf id u => appendString cf ++ (appendU64Var id ++ (appendU64Var u.mask ++ u.append))
  | createCf name config => appendString name ++ appendBytes config
  | dropCf name => appendString name
  | setCfConfig name config => appendString name ++ appendBytes config
  | setNextFileId v => appendU64Var v
  | setGlobalSeq v => appendU64Var v
  | setWalLayout .perColumnFamily => [0]
  | setWalLayout .unified => [1]
  | setNonce nonce => putU64Word nonce
  | setCapability bits => putU64Word bits
  | removeTables cf ids => appendString cf ++ (appendUvarint ids.length ++ ids.flatMap appendU64Var)
  | setCfUnifiedId name id => appendString name ++ putU64Word id
  | setWalFloor generation => appendU64Var generation

def encode (op : Op) : Bytes :=
  appendUvarint op.code ++ op.body

end Op

def encodePayload (editId : UInt64) (edit : VersionEdit) : Bytes :=
  putU64Word editId ++ (appendUvarint edit.ops.length ++ edit.ops.flatMap Op.encode)

namespace Cur

def corrupt (i : Nat) (text : String) : OndaError :=
  .corruption (s!"manifest edit: op index {i}: " ++ text)

def errs (i : Nat) : Errs where
  field := corrupt i "truncated or invalid field"
  varint := corrupt i "truncated or invalid varint"
  signed := corrupt i "truncated or invalid signed varint"
  utf8 := corrupt i "name is not valid UTF-8"

section

variable (i : Nat)

def level : Decoder UInt32 :=
  u32FromUvar (errs i) fun v =>
    let n := v.toNat
    corrupt i s!"level {n} exceeds u32"

def badTag (what : String) (tag : UInt8) : OndaError :=
  let n := tag.toNat
  corrupt i (s!"optional-{what} tag {n} is not 0 or 1")

def optString : Decoder (Option String) := optional (errs i) (badTag i "string") (string (errs i))
def optBytes  : Decoder (Option Bytes)  := optional (errs i) (badTag i "bytes") (bytes (errs i))
def optVarint : Decoder (Option Int64)  := optional (errs i) (badTag i "int") (signed (errs i))

-- An edit has no field for `tableCaps`.
def sstMeta : Decoder SstMeta := do
  let id ← uvar (errs i)
  let level ← level i
  let numEntries ← uvar (errs i)
  let numTombstones ← uvar (errs i)
  let maxSeq ← uvar (errs i)
  let klogSize ← uvar (errs i)
  let vlogSize ← uvar (errs i)
  let minKey ← bytes (errs i)
  let maxKey ← bytes (errs i)
  let partition ← optString i
  let tier ← optString i
  let maxEntryTime ← optVarint i
  let object ← optString i
  let lastCompactionTime ← optVarint i
  let rangeCount ← uvar (errs i)
  let rangeMinSeq ← uvar (errs i)
  let rangeMaxSeq ← uvar (errs i)
  let rangeMinKey ← optBytes i
  let rangeMaxKey ← optBytes i
  pure { id, level, numEntries, numTombstones, maxSeq, klogSize, vlogSize, minKey, maxKey, partition, tier,
         maxEntryTime, object, lastCompactionTime, rangeCount, rangeMinSeq, rangeMaxSeq, rangeMinKey,
         rangeMaxKey, tableCaps := none }

def masked (m bit : UInt64) (r : Decoder α) : Decoder (Option α) :=
  if m &&& bit ≠ 0 then some <$> r else pure none

def tableUpdate (m : UInt64) : Decoder TableUpdate := do
  let level ← masked m 0x01 (level i)
  let tier ← masked m 0x02 (optString i)
  let object ← masked m 0x04 (optString i)
  let partition ← masked m 0x08 (optString i)
  let maxEntryTime ← masked m 0x10 (optVarint i)
  let lastCompactionTime ← masked m 0x20 (optVarint i)
  pure { level, tier, object, partition, maxEntryTime, lastCompactionTime }

def badMask (m : UInt64) : OndaError :=
  corrupt i ("UpdateTable mask " ++ Cap.hex m.toNat ++ " is empty or outside the known mask " ++ Cap.hex 0x3F)

def op : Decoder Op := do
  let code ← uvar (errs i)
  match code.toNat with
  | 1 => do
    let cf ← string (errs i)
    let t ← sstMeta i
    pure (.addTable cf t)
  | 2 => do
    let cf ← string (errs i)
    let id ← uvar (errs i)
    let expectedLevel ← level i
    pure (.removeTable cf id expectedLevel)
  | 3 => do
    let cf ← string (errs i)
    let id ← uvar (errs i)
    let m ← uvar (errs i)
    if m = 0 ∨ m &&& ~~~0x3F ≠ 0 then throw (badMask i m)
    else
      let u ← tableUpdate i m
      pure (.updateTable cf id u)
  | 4 => do
    let name ← string (errs i)
    let config ← bytes (errs i)
    pure (.createCf name config)
  | 5 => do
    let name ← string (errs i)
    pure (.dropCf name)
  | 6 => do
    let name ← string (errs i)
    let config ← bytes (errs i)
    pure (.setCfConfig name config)
  | 7 => do
    let v ← uvar (errs i)
    pure (.setNextFileId v)
  | 8 => do
    let v ← uvar (errs i)
    pure (.setGlobalSeq v)
  | 9 => do
    match ← byte (errs i) with
    | 0 => pure (.setWalLayout .perColumnFamily)
    | 1 => pure (.setWalLayout .unified)
    | other =>
      let n := other.toNat
      throw (corrupt i s!"SetWalLayout byte {n} is not 0 or 1")
  | 10 => do
    let nonce ← u64le (errs i)
    pure (.setNonce nonce)
  | 11 => do
    let bits ← u64le (errs i)
    pure (.setCapability bits)
  | 12 => do
    let cf ← string (errs i)
    let count ← uvar (errs i)
    let ids ← Reader.many (fun _ => uvar (errs i)) 0 count.toNat
    pure (.removeTables cf ids)
  | 13 => do
    let name ← string (errs i)
    let id ← u64le (errs i)
    pure (.setCfUnifiedId name id)
  | 14 => do
    let generation ← uvar (errs i)
    pure (.setWalFloor generation)
  | other =>
    let why := if other > Op.maxAssignable then "above the never-assigned bound 63" else "unassigned"
    throw (corrupt i (s!"op code {other} is " ++ why))

end

def payload : Decoder (UInt64 × List Op) := do
  let editId ← u64le (errs 0)
  let count ← uvar (errs 0)
  let ops ← Reader.many op 0 count.toNat
  pure (editId, ops)

end Cur

def decodePayload (payload : Bytes) : Except OndaError (UInt64 × VersionEdit) := do
  let ((editId, ops), rest) ← Cur.payload payload
  let id := editId.toNat
  let left := rest.length
  let n := ops.length
  if rest ≠ [] then .error (.corruption s!"manifest edit {id}: {left} trailing bytes after {n} ops")
  else .ok (editId, ⟨ops⟩)

end OndaDb.Catalog

import OndaDb.Lib.Chunks
import OndaDb.Lib.Reader
import OndaDb.Sst.Block

-- The index of a table: the last key of each data block and where the block is. It is one flat block,
-- or a B+tree of blocks.
namespace OndaDb.Sst

open Encoding

structure IndexEntry where
  userKey : Bytes
  seq : UInt64
  handle : BlockHandle
  deriving DecidableEq, Repr

structure Index where
  minKey : Bytes
  maxKey : Bytes
  entries : List IndexEntry
  deriving DecidableEq, Repr

def Index.of (minKey : Bytes) (entries : List IndexEntry) : Index where
  minKey := minKey
  maxKey := (entries.getLast?.map IndexEntry.userKey).getD minKey
  entries := entries

def appendBytes (b : Bytes) : Bytes :=
  appendUvarint b.length ++ b

def appendHandle (h : BlockHandle) : Bytes :=
  appendUvarint h.offset.toNat ++ appendUvarint h.length.toNat

def appendEntry (e : IndexEntry) : Bytes :=
  appendBytes e.userKey ++ (appendUvarint e.seq.toNat ++ appendHandle e.handle)

def encodeIndex (minKey : Bytes) (entries : List IndexEntry) : Bytes :=
  appendBytes minKey ++ (appendUvarint entries.length ++ entries.flatMap appendEntry)

abbrev Child := Bytes × BlockHandle

def appendChild (c : Child) : Bytes :=
  appendBytes c.1 ++ appendHandle c.2

def leafNode (chunk : List IndexEntry) : Bytes :=
  1 :: (appendUvarint chunk.length ++ chunk.flatMap appendEntry)

def internalNode (minKey : Option Bytes) (chunk : List Child) : Bytes :=
  0 :: (minKey.elim [] appendBytes ++ (appendUvarint chunk.length ++ chunk.flatMap appendChild))

-- The bytes a klog had before its index, and the payloads of the blocks appended since.
structure Klog where
  base : Bytes
  blocks : List Bytes
  deriving DecidableEq, Repr

namespace Klog

variable (host : Host)

def bytes (klog : Klog) : Bytes :=
  klog.base ++ klog.blocks.flatMap host.frame

def writeMetaBlock (klog : Klog) (payload : Bytes) : Klog × BlockHandle :=
  let handle := {
    offset := (klog.bytes host).length.toUInt64
    length := (host.frame payload).length.toUInt64
  }
  ({ klog with blocks := klog.blocks ++ [payload] }, handle)

def writeNodes (node : List α → Bytes) (sep : α → Bytes) : Klog → List (List α) → Klog × List Child
  | klog, [] => (klog, [])
  | klog, chunk :: chunks =>
    let (klog, handle) := klog.writeMetaBlock host (node chunk)
    let (klog, level) := writeNodes node sep klog chunks
    (klog, ((chunk.getLast?.map sep).getD [], handle) :: level)

theorem length_writeNodes {node : List α → Bytes} {sep : α → Bytes} {klog : Klog} :
    (klog.writeNodes host node sep chunks).2.length = chunks.length := by
  induction chunks generalizing klog
  case nil => rfl
  case cons c cs ih => simp only [writeNodes, List.length_cons, ih]

abbrev Fanout := { n : Nat // 2 ≤ n }

def btreeFanout : Fanout :=
  ⟨256, by decide⟩

def writeParents (fanout : Fanout) (minKey : Bytes) (klog : Klog) (level : List Child) : Klog × BlockHandle :=
  if level.length ≤ fanout then
    let (klog, parent) := klog.writeNodes host (internalNode (some minKey)) Prod.fst (level.chunks fanout)
    (klog, (parent.head?.map Prod.snd).getD ⟨0, 0⟩)
  else
    let parents := klog.writeNodes host (internalNode none) Prod.fst (level.chunks fanout)
    writeParents fanout minKey parents.1 parents.2
termination_by level.length
decreasing_by
  rename_i h
  rw [length_writeNodes]
  exact List.length_chunks_lt fanout.2 (Nat.lt_of_not_le h)

def writeBtreeIndex (fanout : Fanout) (minKey : Bytes) (entries : List IndexEntry) (klog : Klog) :
    Klog × BlockHandle :=
  let (klog, level) := klog.writeNodes host leafNode IndexEntry.userKey (entries.chunks fanout)
  -- An empty table has one empty leaf.
  let (klog, level) := if level.isEmpty then klog.writeNodes host leafNode IndexEntry.userKey [[]] else (klog, level)
  klog.writeParents host fanout minKey level

end Klog

abbrev Decoder (α : Type) := Reader Stop UInt8 α

def corrupt : Stop :=
  corruption "sst: corruption detected"

namespace Decoder

def byte : Decoder UInt8 := fun b =>
  match b with
  | [] => .error corrupt
  | x :: r => .ok (x, r)

def uvar : Decoder UInt64 := fun b =>
  match uvarint b with
  | none => .error corrupt
  | some (x, r) => .ok (x.toUInt64, r)

def bytes : Decoder Bytes := do
  let n ← uvar
  fun b => if b.length < n.toNat then .error corrupt else .ok (b.take n.toNat, b.drop n.toNat)

def handle : Decoder BlockHandle := do
  let offset ← uvar
  let length ← uvar
  return ⟨offset, length⟩

def entry : Decoder IndexEntry := do
  let key ← bytes
  let seq ← uvar
  let h ← handle
  return ⟨key, seq, h⟩

def child : Decoder BlockHandle := do
  let _ ← bytes
  handle

-- Only the root carries the smallest key of the table.
def rootKey (isRoot : Bool) : Decoder (Option Bytes) :=
  if isRoot then some <$> bytes else pure none

-- A buffer for `count` items of `size` bytes, before the first of them is read.
def withCapacity (host : Host) (size : Nat) (count : UInt64) : Decoder Unit := fun b => do
  host.request (size * count.toNat)
  return ((), b)

end Decoder

open Decoder Reader

structure IndexHead where
  minKey : Bytes
  count : UInt64
  deriving DecidableEq, Repr

def indexHead : Decoder IndexHead := do
  let minKey ← bytes
  let count ← uvar
  return ⟨minKey, count⟩

structure NodeHead where
  type : UInt8
  minKey : Option Bytes
  count : UInt64
  deriving DecidableEq, Repr

def nodeHead (isRoot : Bool) : Decoder NodeHead := do
  let type ← byte
  let minKey ← rootKey isRoot
  let count ← uvar
  return ⟨type, minKey, count⟩

inductive Node
  | leaf (entries : List IndexEntry)
  | internal (children : List BlockHandle)
  deriving DecidableEq, Repr

namespace Host

variable (host : Host)

def decodeIndex : Decoder Index := do
  let head ← indexHead
  withCapacity host 48 head.count
  let entries ← many (fun _ => entry) 0 head.count.toNat
  return .of head.minKey entries

def nodeBody (type : UInt8) (count : UInt64) : Decoder Node :=
  if type = 1 then
    .leaf <$> many (fun _ => entry) 0 count.toNat
  else do
    withCapacity host 16 count
    .internal <$> many (fun _ => child) 0 count.toNat

def decodeNode (isRoot : Bool) : Decoder (Option Bytes × Node) := do
  let head ← nodeHead isRoot
  let node ← host.nodeBody head.type head.count
  return (head.minKey, node)

def readNode (file : Bytes) (isRoot : Bool) (h : BlockHandle) : Except Stop (Option Bytes × Node) := do
  let block ← host.readBlockAt file h
  let (node, _) ← host.decodeNode isRoot block
  return node

-- Loading returns, stops, or is still going after so many nested calls.
abbrev Load := ExceptT Stop Option

structure Loading where
  minKey : Bytes
  index : List IndexEntry
  deriving DecidableEq, Repr

def walkBtreeNode (file : Bytes) : Nat → Bool → BlockHandle → Loading → Load Loading
  | 0,         _,      _, _ => ExceptT.mk none
  | depth + 1, isRoot, h, r => do
    let (minKey, node) ← ExceptT.mk (some (host.readNode file isRoot h))
    let r := { r with minKey := minKey.getD r.minKey }
    match node with
    | .leaf entries => return { r with index := r.index ++ entries }
    | .internal children => children.foldlM (fun r child => walkBtreeNode file depth false child r) r

def loadBtree (file : Bytes) (depth : Nat) (root : BlockHandle) : Load Index := do
  let r ← host.walkBtreeNode file depth true root ⟨[], []⟩
  return .of r.minKey r.index

end Host

end OndaDb.Sst

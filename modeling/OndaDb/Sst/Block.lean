import OndaDb.Encoding
import OndaDb.Error

-- The framed blocks of a table's klog.
namespace OndaDb.Sst

open Encoding

structure BlockHandle where
  offset : UInt64
  length : UInt64
  deriving DecidableEq, Repr

inductive Compression
  | none
  | snappy
  | lz4
  | zstd
  | lz4Fast
  | flate
  deriving DecidableEq, Repr

namespace Compression

def codecId : Compression → UInt8
  | none => 0
  | snappy => 1
  | zstd => 3
  | flate => 5
  | lz4 | lz4Fast => 6

def fromCodecId (id : UInt8) : Except OndaError Compression :=
  match id with
  | 0 => .ok none
  | 1 => .ok snappy
  | 3 => .ok zstd
  | 5 => .ok flate
  | 6 => .ok lz4
  | 2 | 4 => .error (.unsupportedFormat
    s!"codec id {id} is burned (0.9 LZ4 / wavesdb zstd) and never valid in epoch 1")
  | other => .error (.unsupportedFormat s!"codec id {other} is not implemented by this binary")

end Compression

-- What the engine runs on: its checksum, the codecs of the compression libraries, and the memory the
-- allocator has for a buffer of so many bytes.
structure Host where
  crc : Bytes → UInt32
  decompress : Compression → Bytes → Nat → Except OndaError Bytes
  grants : Nat → Bool

-- Why an operation does not return a value: it returns an error, or the process is gone because a
-- buffer was not to be had.
inductive Stop
  | error (e : OndaError)
  | abort
  deriving DecidableEq, Repr

def corruption (text : String) : Stop :=
  .error (.corruption text)

def blockHeader : Nat := 13

namespace Host

variable (host : Host)

-- A block that is stored as it is. Its lengths and checksum are cut to 32 bits.
def frame (raw : Bytes) : Bytes :=
  Compression.none.codecId :: (putU32 raw.length ++ (putU32 raw.length ++ (putU32 (host.crc raw).toNat ++ raw)))

def request (n : Nat) : Except Stop Unit :=
  if host.grants n then .ok () else .error .abort

def decompressBlock (alg : Compression) (src : Bytes) (rawLen : Nat) : Except OndaError Bytes :=
  if alg = .none then .ok src else host.decompress alg src rawLen

def blockPayload (buf : Bytes) : Except OndaError (Compression × Bytes × Nat) :=
  let compLen := readLe ((buf.drop 1).take 4)
  let rawLen := readLe ((buf.drop 5).take 4)
  let wantCrc := readLe ((buf.drop 9).take 4)
  let payload := (buf.drop blockHeader).take compLen
  if buf.length < blockHeader then .error (.corruption "block: short header")
  else if buf.length < blockHeader + compLen then .error (.corruption "block: truncated payload")
  else if (host.crc payload).toNat ≠ wantCrc then .error (.corruption "block: checksum mismatch")
  else do
    let alg ← Compression.fromCodecId (buf.headD 0)
    return (alg, payload, rawLen)

def readExactAt (file : Bytes) (off length : Nat) : Except Stop Bytes :=
  let buf := (file.drop off).take length
  if buf.length < length then .error (.error (.io "failed to fill whole buffer")) else .ok buf

def readBlockAt (file : Bytes) (h : BlockHandle) : Except Stop Bytes := do
  host.request h.length.toNat
  let buf ← readExactAt file h.offset.toNat h.length.toNat
  let (alg, payload, rawLen) ← (host.blockPayload buf).mapError .error
  let raw ← (host.decompressBlock alg payload rawLen).mapError .error
  if raw.length ≠ rawLen then .error (corruption "block: raw length mismatch") else return raw

end Host

end OndaDb.Sst

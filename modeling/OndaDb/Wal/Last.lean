import OndaDb.Wal.Basic

namespace OndaDb.Wal

variable (crc : Bytes → UInt32)

def decodeFramePayloadSeq (payload : Bytes) : Except OndaError (List ReplayRecord × Nat) := do
  let recs ← decodeFramePayload payload
  .ok (recs, recs.foldl (fun lastSeq rec => max lastSeq rec.replaySeq) 0)

def replayFramesSeq (b : Bytes) : Except OndaError (List ReplayRecord × Nat) := do
  let frames ← ((framing crc).scan b).1.mapM decodeFramePayloadSeq
  .ok (frames.flatMap Prod.fst, frames.foldl (fun lastSeq frame => max lastSeq frame.2) 0)

def replayFileSeq (id : SegmentId) (file : Bytes) : Except OndaError (List ReplayRecord × Nat) := do
  match ← checkSegmentHead crc (file.take Segment.headerLen) file.length id with
  | .empty => .ok ([], 0)
  | .valid => replayFramesSeq crc (file.drop Segment.headerLen)

def replaySeq (id : SegmentId) (files : List Bytes) : Except OndaError (List (List ReplayRecord) × Nat) := do
  let stripes ← files.mapM (replayFileSeq crc id)
  .ok (stripes.map Prod.fst, stripes.foldl (fun lastSeq stripe => max lastSeq stripe.2) 0)

end OndaDb.Wal

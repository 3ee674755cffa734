import OndaDb.Lib.Framing
import OndaDb.Wal.Record

namespace OndaDb.Wal

open Encoding List

inductive SyncMode
  | none
  | interval
  | full
  deriving DecidableEq, Repr

structure SegmentId where
  layout : Schema
  generation : UInt64
  deriving DecidableEq, Repr

inductive SegmentHead
  | valid
  | empty
  deriving DecidableEq, Repr

namespace Segment

def magic : Bytes := [0x59, 0x4F, 0x4C, 0x4F, 0x44, 0x42, 0x57, 0x4C]
def version : Nat := 1
def headerLen : Nat := 32

end Segment

def SegmentId.layoutByte (id : SegmentId) : UInt8 :=
  id.layout.code.toUInt8

section

variable (crc : Bytes → UInt32)

def encodeSegmentHeader (id : SegmentId) : Bytes :=
  let b := Segment.magic ++ putU32 Segment.version ++ [id.layoutByte] ++ [0, 0, 0] ++
    putU64 id.generation.toNat ++ [0, 0, 0, 0]
  b ++ putU32 (crc b).toNat

-- `head` is the first 32 bytes of a file of `fileLen` bytes, or all of a shorter one.
def checkSegmentHead (head : Bytes) (fileLen : Nat) (expect : SegmentId) :
    Except OndaError SegmentHead :=
  let foreign : OndaError := .unsupportedFormat
    ("wal: segment has no yoloDB header (YOLODBWL) — a foreign file, or an ondaDB 0.9 " ++
      "WAL, which is readable only through legacy_onda")
  let onlyHeader := fileLen = Segment.headerLen
  let version := readLe ((head.drop 8).take 4)
  let layout := (head.drop 12).headD 0
  let generation := readLe ((head.drop 16).take 8)
  let code := layout.toNat
  let wanted := expect.layoutByte.toNat
  let due := expect.generation.toNat
  if fileLen = 0 then .ok .empty
  else if head.length < Segment.headerLen then
    let n := min head.length 8
    -- Torn while the header was written.
    if head.take n = Segment.magic.take n ∨ head.all (· = 0) then .ok .empty else .error foreign
  else if head.take 8 ≠ Segment.magic then
    if onlyHeader ∧ head.all (· = 0) then .ok .empty else .error foreign
  else if version ≠ Segment.version then
    .error (.unsupportedFormat s!"wal segment version {version} is not implemented by this binary")
  else if readLe ((head.drop 28).take 4) ≠ (crc (head.take 28)).toNat then
    if onlyHeader then .ok .empty
    else .error (.corruption "wal segment header: checksum mismatch")
  else if ((head.drop 13).take 3).any (· ≠ 0) ∨ ((head.drop 24).take 4).any (· ≠ 0) then
    .error (.corruption "wal segment header: reserved bytes are not zero")
  else if layout ≠ 1 ∧ layout ≠ 2 then
    .error (.unsupportedFormat s!"wal segment layout {code} is not implemented by this binary")
  else if layout ≠ expect.layoutByte then
    .error (.corruption s!"wal segment header: layout {code} where {wanted} was expected")
  else if generation ≠ expect.generation.toNat then
    .error (.corruption s!"wal segment header: generation {generation} where {due} was expected")
  else .ok .valid

def headerSize : Nat := 8

-- One framed payload: its length and checksum, each cut to 32 bits, and the payload.
def frame (payload : Bytes) : Bytes :=
  putU32 payload.length ++ (putU32 (crc payload).toNat ++ payload)

-- The payload of the frame at the front of `b`, unless the header or the payload is short or the
-- checksum differs.
def nextFrame (b : Bytes) : Option (Bytes × Bytes) :=
  let plen := readLe (b.take 4)
  let want := readLe ((b.drop 4).take 4)
  let rest := b.drop headerSize
  if b.length < headerSize then none
  else if rest.length < plen then none
  else if (crc (rest.take plen)).toNat ≠ want then none
  else some (rest.take plen, rest.drop plen)

theorem nextFrame_shrinks (h : nextFrame crc b = some (p, r)) :
    r.length < b.length := by
  simp only [nextFrame, Option.ite_none_left_eq_some] at h
  obtain ⟨hlen, -, -, h⟩ := h
  rw [Option.some.injEq, Prod.mk.injEq] at h
  rw [← h.2]
  simp only [length_drop, headerSize] at hlen ⊢
  omega

theorem nextFrame_frame (hp : p.length < 2 ^ 32) (r : Bytes) :
    nextFrame crc (frame crc p ++ r) = some (p, r) := by
  have hl : readLe (putLe 4 p.length) = p.length := by
    rw [readLe_putLe]
    exact Nat.mod_eq_of_lt hp
  have hc : readLe (putLe 4 (crc p).toNat) = (crc p).toNat := by
    rw [readLe_putLe]
    exact Nat.mod_eq_of_lt (crc p).toNat_lt
  have hd : (frame crc p ++ r).drop 8 = p ++ r := by
    rw [frame, ← append_assoc, append_assoc]
    exact drop_left' (by simp [putU32])
  have hlen : ¬ (frame crc p ++ r).length < 8 := by
    simp only [frame, putU32, length_append, length_putLe]
    omega
  have hplen : (frame crc p ++ r).take 4 = putLe 4 p.length := by simp [frame, putU32]
  have hwant : ((frame crc p ++ r).drop 4).take 4 = putLe 4 (crc p).toNat := by simp [frame, putU32]
  simp only [nextFrame, headerSize, hplen, hwant, hl, hc, hd, if_neg hlen]
  simp

theorem nextFrame_torn (hp : p.length < 2 ^ 32) (ht : t <+: frame crc p) (hn : t ≠ frame crc p) :
    nextFrame crc t = none := by
  obtain ⟨s, hs⟩ := ht
  have hlt : t.length < (frame crc p).length := by
    rw [← hs, length_append]
    have : s ≠ [] := by
      rintro rfl
      exact hn (by simpa using hs)
    have := length_pos_iff.mpr this
    omega
  have hlen : (frame crc p).length = 8 + p.length := by
    simp [frame, putU32]
    omega
  by_cases h8 : t.length < 8
  · simp [nextFrame, headerSize, h8]
  · have htake : t.take 4 = putU32 p.length := by
      have : (frame crc p).take 4 = putU32 p.length := by simp [frame, putU32]
      rw [← this, ← hs, take_append_of_le_length (by omega)]
    have hl : readLe (t.take 4) = p.length := by
      rw [htake, putU32, readLe_putLe]
      exact Nat.mod_eq_of_lt hp
    simp only [nextFrame, headerSize, hl, length_drop]
    rw [if_neg h8, if_pos (by omega)]

def framing : Framing UInt8 Bytes where
  encode := frame crc
  next := nextFrame crc
  Fits p      := p.length < 2 ^ 32
  shrinks := nextFrame_shrinks crc
  next_encode := fun hp => nextFrame_frame crc hp _
  next_torn := nextFrame_torn crc

-- Frames are read up to the end or the first torn one; a payload that fails to decode behind a
-- matching checksum fails the replay.
def replayFrames (b : Bytes) : Except OndaError (List ReplayRecord) := do
  let recs ← ((framing crc).scan b).1.mapM decodeFramePayload
  .ok recs.flatten

def replayFile (id : SegmentId) (file : Bytes) : Except OndaError (List ReplayRecord) := do
  match ← checkSegmentHead crc (file.take Segment.headerLen) file.length id with
  | .empty => .ok []
  | .valid => replayFrames crc (file.drop Segment.headerLen)

end

end OndaDb.Wal

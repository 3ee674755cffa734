import OndaDb.Wal.Last
import OndaDb.Wal.Theorems.Replay

namespace OndaDb.Wal

open Encoding Session List

variable {crc : Bytes → UInt32} {id : SegmentId}

def ReplayRecord.dataSeq? : ReplayRecord → Option Nat
  | point r => some r.seq
  | rangeDelete _ _ seq => some seq
  | prepare .. => none
  | decision .. => none

def maxDataSeq (recs : List ReplayRecord) : Nat :=
  (recs.filterMap ReplayRecord.dataSeq?).foldl max 0

theorem foldl_max (l : List Nat) (a : Nat) : l.foldl max a = max a (l.foldl max 0) := by
  induction l generalizing a
  case nil => exact (Nat.max_zero a).symm
  case cons b l ih => rw [foldl_cons, foldl_cons, ih, ih (max 0 b), Nat.zero_max, Nat.max_assoc]

theorem foldl_replaySeq (recs : List ReplayRecord) :
    recs.foldl (fun lastSeq rec => max lastSeq rec.replaySeq) 0 = maxDataSeq recs := by
  rw [maxDataSeq, ← foldl_map (f := ReplayRecord.replaySeq)]
  induction recs
  case nil => rfl
  case cons r recs ih =>
    rw [map_cons, foldl_cons, Nat.zero_max, foldl_max, ih]
    cases r
    case point | rangeDelete =>
      simp only [ReplayRecord.replaySeq, filterMap_cons, ReplayRecord.dataSeq?, foldl_cons, Nat.zero_max]
      exact (foldl_max ..).symm
    case prepare | decision =>
      simp only [ReplayRecord.replaySeq, filterMap_cons, ReplayRecord.dataSeq?, Nat.zero_max]

theorem maxDataSeq_append (l l' : List ReplayRecord) :
    maxDataSeq (l ++ l') = max (maxDataSeq l) (maxDataSeq l') := by
  rw [maxDataSeq, filterMap_append, foldl_append, foldl_max, maxDataSeq, maxDataSeq]

theorem foldl_maxDataSeq (ls : List (List ReplayRecord)) :
    ls.foldl (fun lastSeq recs => max lastSeq (maxDataSeq recs)) 0 = maxDataSeq ls.flatten := by
  rw [← foldl_map (f := maxDataSeq)]
  induction ls
  case nil => rfl
  case cons l ls ih => rw [map_cons, foldl_cons, foldl_max, ih, Nat.zero_max, flatten_cons, maxDataSeq_append]

theorem mapM_map {α β γ : Type} (f : α → Except OndaError β) (g : β → γ) (l : List α) :
    l.mapM (fun a => (f a).map g) = (l.mapM f).map (map g) := by
  induction l
  case nil => rfl
  case cons a l ih =>
    rw [mapM_cons, mapM_cons, ih]
    cases f a
    case error => rfl
    case ok b => cases l.mapM f <;> rfl

theorem replayFramesSeq_eq (b : Bytes) :
    replayFramesSeq crc b = (replayFrames crc b).map fun recs => (recs, maxDataSeq recs) := by
  have hframe : decodeFramePayloadSeq = fun payload =>
      (decodeFramePayload payload).map fun recs => (recs, maxDataSeq recs) := by
    funext payload
    rw [decodeFramePayloadSeq]
    cases decodeFramePayload payload
    case error => rfl
    case ok recs => exact congrArg (fun n => Except.ok (recs, n)) (foldl_replaySeq recs)
  rw [replayFramesSeq, replayFrames, hframe, mapM_map]
  cases ((framing crc).scan b).1.mapM decodeFramePayload
  case error => rfl
  case ok frames =>
    refine congrArg Except.ok (Prod.ext ?_ ?_)
    · exact (flatMap_map ..).trans flatMap_id
    · exact (foldl_map ..).trans (foldl_maxDataSeq frames)

theorem replayFileSeq_eq (id : SegmentId) (file : Bytes) :
    replayFileSeq crc id file = (replayFile crc id file).map fun recs => (recs, maxDataSeq recs) := by
  rw [replayFileSeq, replayFile]
  rcases checkSegmentHead crc (file.take Segment.headerLen) file.length id with _ | (_ | _)
  · rfl
  · exact replayFramesSeq_eq _
  · rfl

theorem replaySeq_eq (id : SegmentId) (files : List Bytes) :
    replaySeq crc id files =
      (files.mapM (replayFile crc id)).map fun stripes => (stripes, maxDataSeq stripes.flatten) := by
  have hfile : replayFileSeq crc id = fun file =>
      (replayFile crc id file).map fun recs => (recs, maxDataSeq recs) := funext (replayFileSeq_eq id)
  rw [replaySeq, hfile, mapM_map]
  cases files.mapM (replayFile crc id)
  case error => rfl
  case ok stripes =>
    refine congrArg Except.ok (Prod.ext ?_ ?_)
    · exact (map_map ..).trans (map_id _)
    · exact (foldl_map ..).trans (foldl_maxDataSeq stripes)

theorem replayFile_cut (hn : n < Segment.headerLen) (body : Bytes) :
    replayFile crc id ((encodeSegmentHeader crc id ++ body).take n) = .ok [] := by
  have hh : (encodeSegmentHeader crc id).length = Segment.headerLen := length_encodeSegmentHeader
  have hlen : ((encodeSegmentHeader crc id).take n).length = n := by rw [length_take]; omega
  have hmagic : ((encodeSegmentHeader crc id).take n).take (min n 8) = Segment.magic.take (min n 8) := by
    rw [take_take, Nat.min_eq_left (by omega : min n 8 ≤ n), encodeSegmentHeader]
    simp only [append_assoc]
    exact take_append_of_le_length (by simp [Segment.magic])
  rw [take_append_of_le_length (by omega), replayFile, take_of_length_le (by omega),
    hlen, checkSegmentHead]
  by_cases h0 : n = 0
  · rw [if_pos h0]
    rfl
  · rw [if_neg h0, if_pos (by omega), hlen, if_pos (.inl hmagic)]
    rfl

def stripeFile (crc : Bytes → UInt32) (id : SegmentId) (l : List Append) : Bytes :=
  encodeSegmentHeader crc id ++ frames crc l

-- The appends whose frames lie completely in the first `n` bytes of their file.
def kept (crc : Bytes → UInt32) (l : List Append) (n : Nat) : List Append :=
  l.take ((framing crc).whole (n - Segment.headerLen) (l.map fun a => a.batch.payload))

theorem kept_of_le (hf : ∀ a ∈ l, a.Fits) (hn : n ≤ Segment.headerLen) :
    kept crc l n = [] := by
  rw [kept, Nat.sub_eq_zero_of_le hn]
  cases l
  case nil => rfl
  case cons a l =>
    have hne : ((framing crc).encode a.batch.payload).length ≠ 0 := fun he =>
      Framing.encode_ne_nil (F := framing crc) (hf a mem_cons_self) (length_eq_zero_iff.mp he)
    rw [map_cons, Framing.whole, if_neg (by omega), take_zero]

theorem replayFile_take (hf : ∀ a ∈ l, a.Fits) (n : Nat) :
    replayFile crc id ((stripeFile crc id l).take n) = .ok ((kept crc l n).flatMap Append.replayed) := by
  by_cases hn : n < Segment.headerLen
  case pos =>
    rw [kept_of_le hf hn.le, stripeFile, replayFile_cut hn]
    rfl
  have hfit : ∀ p ∈ l.map (fun a => a.batch.payload), (framing crc).Fits p := by
    intro p hp
    obtain ⟨a, ha, rfl⟩ := mem_map.mp hp
    exact hf a ha
  have hscan := Framing.scan_take hfit (n - Segment.headerLen)
  rw [stripeFile, take_append, length_encodeSegmentHeader,
    take_of_length_le (by rw [length_encodeSegmentHeader]; omega), replayFile_header, replayFrames,
    frames_eq, hscan, ← map_take, ← kept, Stripe.mapM_decode]
  exact congrArg Except.ok (flatMap_def ..).symm

-- Each stripe may end anywhere, also in its header: replay delivers the records of the frames that
-- are left whole, and returns the highest data sequence among them.
theorem replaySeq_cut (crc : Bytes → UInt32) (id : SegmentId) (stripes : List (List Append × Nat))
    (hf : ∀ st ∈ stripes, ∀ a ∈ st.1, a.Fits) :
    replaySeq crc id (stripes.map fun st => (stripeFile crc id st.1).take st.2) =
      .ok (stripes.map fun st => (kept crc st.1 st.2).flatMap Append.replayed,
        maxDataSeq (stripes.flatMap fun st => (kept crc st.1 st.2).flatMap Append.replayed)) := by
  have hm : (stripes.map fun st => (stripeFile crc id st.1).take st.2).mapM (replayFile crc id) =
      .ok (stripes.map fun st => (kept crc st.1 st.2).flatMap Append.replayed) := by
    induction stripes
    case nil => rfl
    case cons st stripes ih =>
      rw [map_cons, mapM_cons, replayFile_take (hf st mem_cons_self),
        ih fun st' h => hf st' (mem_cons_of_mem _ h)]
      rfl
  rw [replaySeq_eq, hm]
  exact congrArg (fun recs => Except.ok (_, maxDataSeq recs)) (flatMap_def ..).symm

-- The second frame of one stripe is cut in its length, the other stripe in its header.
theorem replaySeq_cut_two :
    replaySeq (fun _ => 0) segment
        ([([putOf 1, putOf 2], 48), ([putOf 3], 7)].map fun st => (stripeFile (fun _ => 0) segment st.1).take st.2) =
      .ok ([(putOf 1).replayed, []], 1) := by
  have hfits : ∀ key, (putOf key).Fits := by simp [Append.Fits, payload_putOf]
  have hcut := replaySeq_cut (fun _ => 0) segment [([putOf 1, putOf 2], 48), ([putOf 3], 7)]
    (by simp [hfits])
  refine hcut.trans ?_
  decide +kernel

-- A range delete without a start is written as a whole frame, and replay fails on it.
theorem replaySeq_emptyStart :
    replaySeq (fun _ => 0) segment
        [encodeSegmentHeader (fun _ => 0) segment ++
          frame (fun _ => 0) (Batch.envelope .perCf [.range [] [1] 5]).payload] =
      .error (.corruption "wal: range-delete record has an empty bound") := by
  decide +kernel

end OndaDb.Wal

import OndaDb.Lib.Run
import OndaDb.Wal.Basic
import OndaDb.Wal.Theorems.Record

namespace OndaDb.Wal

structure Append where
  batch : Batch
  valid : batch.Valid

def Append.replayed (a : Append) : List ReplayRecord :=
  a.batch.replayed

-- One stripe of a generation: the bytes the OS was given, and the write buffer of the open handle.
structure Stripe where
  file : Bytes
  handle : Option Bytes
  deriving DecidableEq

-- The handle `Wal` with what its `Shared` holds.
structure Log where
  sync : SyncMode
  bufCap : Nat
  stripes : List Stripe
  queue : List Append
  poisoned : Bool

-- What becomes of one `write_all`: it completes, or it fails after `n` bytes.
abbrev Fault := Option Nat

def writeFailed : OndaError := .io "write failed"
def walClosed : OndaError := .invalidDb "wal closed"

def writeAll (file b : Bytes) : Fault → Bytes × Except OndaError Unit
  | none => (file ++ b, .ok ())
  | some n => (file ++ b.take n, .error writeFailed)

namespace Log

def walStripes : Nat := 4

section

variable (crc : Bytes → UInt32)

def «open» (mode : SyncMode) (id : SegmentId) (bufferBytes : Nat) : Log where
  sync := mode
  bufCap := if mode = .full then 0 else bufferBytes
  stripes := List.replicate (if mode = .full then 1 else walStripes)
    { file := encodeSegmentHeader crc id, handle := some [] }
  queue := []
  poisoned := false

end

def setStripe (w : Log) (k : Nat) (st : Stripe) : Log :=
  { w with stripes := w.stripes.set k st }

def poison (w : Log) : Log :=
  { w with poisoned := true }

-- Hands the buffer of stripe `k` to the OS and clears it, whether or not the write succeeds.
def flushStripe (w : Log) (k : Nat) (fault : Fault) : Log × Except OndaError Unit :=
  match w.stripes[k]? with
  | some ⟨file, some (b :: buf)⟩ =>
    match writeAll file (b :: buf) fault with
    | (file, .ok ()) => (w.setStripe k ⟨file, some []⟩, .ok ())
    | (file, .error e) => ((w.setStripe k ⟨file, some []⟩).poison, .error e)
  | _ => (w, .ok ())

def coalesces (w : Log) (buf : Bytes) : Bool :=
  w.bufCap ≠ 0 ∧ buf.length < w.bufCap

def place (w : Log) (k : Nat) (buf : Bytes) (fault : Fault) : Log × Except OndaError Unit :=
  match w.stripes[k]? with
  | some ⟨file, some pending⟩ =>
    if w.coalesces buf then (w.setStripe k ⟨file, some (pending ++ buf)⟩, .ok ())
    else
      match writeAll file buf fault with
      | (file, res) => (w.setStripe k ⟨file, some pending⟩, res)
  | _ => (w, .error walClosed)

def overflows (w : Log) (k : Nat) (buf : Bytes) : Bool :=
  match w.stripes[k]? with
  | some ⟨_, some pending⟩ =>
    w.bufCap ≠ 0 ∧ pending ≠ [] ∧ pending.length + buf.length > w.bufCap
  | _ => false

-- The direct path of `submit_frame`, on the stripe of the calling thread.
def submitDirect (w : Log) (k : Nat) (buf : Bytes) (flushFault fault : Fault) :
    Log × Except OndaError Unit :=
  if w.overflows k buf then
    match w.flushStripe k flushFault with
    | (w, .ok ()) => w.place k buf fault
    | (w, .error e) => (w, .error e)
  else w.place k buf fault

-- The frames of one group, in order, up to the first write that fails: `(i, n)` fails the `i`-th
-- after `n` bytes.
def writeGroup (file : Bytes) : List Bytes → Option (Nat × Nat) → Bytes × Except OndaError Unit
  | [],       _ => (file, .ok ())
  | buf :: _, some (0, n) => writeAll file buf (some n)
  | buf :: l, some (i + 1, n) => writeGroup (file ++ buf) l (some (i, n))
  | buf :: l, none => writeGroup (file ++ buf) l none

-- The leader's write of one batch of requests; every request gets the same answer.
def flushGroup (w : Log) (batch : List Bytes) (fault : Option (Nat × Nat)) (syncFails : Bool) :
    Log × Except OndaError Unit :=
  match w.stripes[(0 : Nat)]? with
  | some ⟨file, some pending⟩ =>
    match writeGroup file batch fault with
    | (file, .ok ()) =>
      if syncFails then
        ((w.setStripe 0 ⟨file, some pending⟩).poison, .error (.io "fsync failed"))
      else (w.setStripe 0 ⟨file, some pending⟩, .ok ())
    | (file, .error e) => (w.setStripe 0 ⟨file, some pending⟩, .error e)
  | _ => (w, .error walClosed)

def closeStripe (w : Log) (k : Nat) (fault : Fault) : Log :=
  let w := (w.flushStripe k fault).1
  match w.stripes[k]? with
  | some ⟨file, _⟩ => w.setStripe k ⟨file, none⟩
  | none => w

def flushed (w : Log) : List Bytes :=
  w.stripes.map fun st => st.file ++ st.handle.getD []

-- Stripes past those a generation has are missing files, which replay as empty.
def replay (crc : Bytes → UInt32) (id : SegmentId) (files : List Bytes) :
    Except OndaError (List ReplayRecord) := do
  let recs ← files.mapM (replayFile crc id)
  .ok recs.flatten

end Log

structure Session where
  wal : Log
  acked : List Append
  refused : List Append

-- What can happen to a log: an append by a thread, a request joining the commit group, the leader
-- taking the group, a buffer flush, an `fsync`, a close.
inductive Event
  | append (thread : Nat) (a : Append) (flushFault fault : Fault)
  | enqueue (a : Append)
  | group (fault : Option (Nat × Nat)) (syncFails : Bool)
  | flush (stripe : Nat) (fault : Fault)
  | fsync (fails : Bool)
  | close (stripe : Nat) (fault : Fault)

namespace Session

variable (crc : Bytes → UInt32)

def start (mode : SyncMode) (id : SegmentId) (bufferBytes : Nat) : Session :=
  { wal := .open crc mode id bufferBytes, acked := [], refused := [] }

def answer (s : Session) (l : List Append) : Log × Except OndaError Unit → Session
  | (w, .ok ()) => { s with wal := w, acked := s.acked ++ l }
  | (w, .error _) => { s with wal := w, refused := s.refused ++ l }

def stripeOf (s : Session) (thread : Nat) : Nat :=
  thread % s.wal.stripes.length

def bytes (a : Append) : Bytes :=
  frame crc a.batch.payload

def exec (s : Session) : Event → Session
  | .append thread a flushFault fault =>
    if s.wal.sync = .full then s
    else s.answer [a] (s.wal.submitDirect (s.stripeOf thread) (bytes crc a) flushFault fault)
  | .enqueue a =>
    if s.wal.sync = .full then { s with wal.queue := s.wal.queue ++ [a] } else s
  | .group fault syncFails =>
    let batch := s.wal.queue
    if batch = [] then s
    else { s with wal.queue := [] }.answer batch
      ({ s.wal with queue := [] }.flushGroup (batch.map (bytes crc)) fault syncFails)
  | .flush k fault => { s with wal := (s.wal.flushStripe k fault).1 }
  | .fsync fails => if fails then { s with wal := s.wal.poison } else s
  | .close k fault => { s with wal := s.wal.closeStripe k fault }

-- Replay of the flushed files gives the records of the acknowledged appends, each as often as it
-- was acknowledged, and no other.
def Delivers (id : SegmentId) (s : Session) : Prop :=
  ∃ recs, Log.replay crc id s.wal.flushed = .ok recs ∧
    List.Perm recs (s.acked.flatMap Append.replayed)

-- The whole file is read back: no torn frame stands at its end.
def Whole (file : Bytes) : Prop :=
  ((framing crc).scan (file.drop Segment.headerLen)).2 = []

-- No write leaves bytes behind a torn frame, no failing write leaves its frame whole, and a group
-- fails at its first frame or not at all.
def Clean (s : Session) : Event → Prop
  | .append thread a _ fault =>
    a.batch.payload.length < 2 ^ 32 ∧ ∀ st ∈ s.wal.stripes[s.stripeOf thread]?,
      if s.wal.coalesces (bytes crc a) then Whole crc st.file
      else (∀ n ∈ fault, n < (bytes crc a).length) ∧ (fault = some 0 ∨ Whole crc st.file)
  | .group fault _ =>
    (∀ a ∈ s.wal.queue, a.batch.payload.length < 2 ^ 32) ∧
    ∀ st ∈ s.wal.stripes[(0 : Nat)]?, ∀ a ∈ s.wal.queue.head?,
      match fault with
      | some (0, n) => n < (bytes crc a).length ∧ (n = 0 ∨ Whole crc st.file)
      | some (i, _) => s.wal.queue.length ≤ i ∧ Whole crc st.file
      | none => Whole crc st.file
  | _ => True

def Step (s s' : Session) : Prop :=
  s.wal.poisoned = false ∧ ∃ e, s.Clean crc e ∧ s' = s.exec crc e

end Session

end OndaDb.Wal

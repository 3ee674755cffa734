import OndaDb.Wal.Session

-- Group commit: under `SyncMode::Full` committers queue their frames and one of them writes for all.
namespace OndaDb.GroupCommit

open Wal

structure Req where
  buf : Bytes
  res : Nat
  deriving DecidableEq, Repr

def codeToResult (code : Int) : Except OndaError Unit :=
  if code = 0 then .ok () else .error (.fromCode code)

def resultToCode : Except OndaError Unit → Int
  | .ok () => 0
  | .error e => e.code

-- Where a committer stands in `submit_frame`: not called yet, in the loop of the leader (its top, the
-- second look after an empty batch, the write of a batch, the answers, the last look at the queue),
-- waiting for its result, returned.
inductive Phase
  | idle
  | top
  | recheck
  | flush (batch : List Req)
  | send (rest : List Req) (code : Int)
  | leave
  | recv
  | done (res : Except OndaError Unit)

namespace Phase

def leads : Phase → Bool
  | top | recheck | flush _ | send .. | leave => true
  | idle | recv | done _ => false

def unwritten : Phase → List Req
  | flush batch => batch
  | _ => []

def unsent : Phase → List Req
  | flush batch => batch
  | send rest _ => rest
  | _ => []

def fresh : Phase → Bool
  | idle => true
  | _ => false

def returned : Phase → Bool
  | done _ => true
  | _ => false

end Phase

-- What became of a group: the log was closed, the `i`-th write failed after `n` bytes, the sync
-- failed, or everything succeeded.
inductive Outcome
  | closed
  | torn (i n : Nat)
  | unsynced
  | synced
  deriving DecidableEq, Repr

structure Group where
  reqs : List Req
  outcome : Outcome
  deriving DecidableEq, Repr

namespace Group

def bufs (g : Group) : List Bytes :=
  g.reqs.map Req.buf

def wrote (g : Group) : List Bytes :=
  match g.outcome with
  | .closed => []
  | .torn i n => g.bufs.take i ++ (g.bufs[i]?.map (·.take n)).toList
  | .unsynced | .synced => g.bufs

end Group

-- The log with its queue, and the committers. Every message that was sent to a committer stays in
-- `sent`; `submitted` and `groups` record the calls of `submit_frame` and of `flush_group`.
structure State where
  wal : Log
  queue : List Req
  flushing : Bool
  phase : Nat → Phase
  sent : Nat → List Int
  submitted : List Req
  groups : List Group

-- What the environment decides about one `flush_group`: which write fails, and whether the sync does.
structure Luck where
  fault : Option (Nat × Nat)
  syncFails : Bool
  deriving DecidableEq, Repr

inductive Event
  | submit (i : Nat) (buf : Bytes)
  -- Committer `i` runs to the end of its next locked section, or through its next channel operation.
  | run (i : Nat) (luck : Luck)
  | close (fault : Fault)

namespace State

def start (wal : Log) : State where
  wal := wal
  queue := []
  flushing := false
  phase := fun _ => .idle
  sent := fun _ => []
  submitted := []
  groups := []

def goto (s : State) (i : Nat) (p : Phase) : State :=
  { s with phase := Function.update s.phase i p }

def outcome (s : State) (batch : List Req) (luck : Luck) : Outcome :=
  match s.wal.stripes[(0 : Nat)]?, luck.fault with
  | some ⟨_, some _⟩, some (i, n) =>
    if i < batch.length then .torn i n else if luck.syncFails then .unsynced else .synced
  | some ⟨_, some _⟩, none => if luck.syncFails then .unsynced else .synced
  | _,                _ => .closed

-- A sender is alive as long as its request waits in the queue or in the batch of a leader.
def Alive (s : State) (i : Nat) : Prop :=
  (∃ r ∈ s.queue, r.res = i) ∨ ∃ c ∈ s.submitted, ∃ r ∈ (s.phase c.res).unsent, r.res = i

def run (s : State) (i : Nat) (luck : Luck) : State :=
  match s.phase i with
  | .top =>
    match s.queue with
    | [] => s.goto i .recheck
    | r :: queue => State.goto { s with queue := [] } i (.flush (r :: queue))
  | .recheck =>
    if s.queue = [] then State.goto { s with flushing := false } i .recv else s.goto i .top
  | .flush batch =>
    let flushed := s.wal.flushGroup (batch.map Req.buf) luck.fault luck.syncFails
    let group : Group := ⟨batch, s.outcome batch luck⟩
    State.goto { s with wal := flushed.1, groups := s.groups ++ [group] } i
      (.send batch (resultToCode flushed.2))
  | .send [] _ => s.goto i .leave
  | .send (r :: rest) code =>
    State.goto { s with sent := Function.update s.sent r.res (s.sent r.res ++ [code]) } i
      (.send rest code)
  | .leave =>
    if s.queue = [] then State.goto { s with flushing := false } i .recv else s.goto i .top
  | .recv =>
    match s.sent i with
    | code :: _ => s.goto i (.done (codeToResult code))
    -- `recv` fails once no sender is left.
    | [] => s.goto i (.done (codeToResult (-4)))
  | .idle | .done _ => s

def submit (s : State) (i : Nat) (buf : Bytes) : State :=
  let req : Req := ⟨buf, i⟩
  let s := { s with queue := s.queue ++ [req], submitted := s.submitted ++ [req] }
  if s.flushing then s.goto i .recv else State.goto { s with flushing := true } i .top

def exec (s : State) : Event → State
  | .submit i buf => s.submit i buf
  | .run i luck => s.run i luck
  | .close fault => { s with wal := s.wal.closeStripe 0 fault }

-- Whether committer `i` can go on: a full channel blocks the sender, an empty one the receiver.
def Runnable (s : State) (i : Nat) : Prop :=
  match s.phase i with
  | .idle | .done _ => False
  | .send (r :: _) _ => s.sent r.res = [] ∨ (s.phase r.res).returned
  | .recv => s.sent i ≠ [] ∨ ¬ s.Alive i
  | _ => True

def Enabled (s : State) : Event → Prop
  | .submit i _ => (s.phase i).fresh
  | .run i _ => s.Runnable i
  | .close _ => True

instance (s : State) (i : Nat) : Decidable (s.Alive i) :=
  inferInstanceAs (Decidable (_ ∨ _))

instance (s : State) (i : Nat) : Decidable (s.Runnable i) := by
  unfold Runnable
  split <;> infer_instance

instance (s : State) : DecidablePred s.Enabled
  | .submit i _ => inferInstanceAs (Decidable ((s.phase i).fresh = true))
  | .run i _ => inferInstanceAs (Decidable (s.Runnable i))
  | .close _ => .isTrue trivial

def Step (s s' : State) : Prop :=
  ∃ e, s.Enabled e ∧ s' = s.exec e

end State

end OndaDb.GroupCommit

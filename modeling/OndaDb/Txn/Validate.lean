import OndaDb.SpanIndex.Basic
import OndaDb.Txn.Basic

-- What a commit checks against the commits before it.
namespace OndaDb

variable {K V : Type} [LinearOrder K]

def WriteEntry.touches (w : WriteEntry K V) (cf : Nat) (key : K) : Bool :=
  w.writes cf key || w.covers cf key

-- The committed writes with their sequences, newest first.
abbrev CommitLog (K V : Type) := List (Nat × WriteEntry K V)

namespace CommitLog

-- The newest sequence of a point version of the key, 0 if there is none.
def peekSeq (log : CommitLog K V) (cf : Nat) (key : K) : Nat :=
  log.foldr (fun e n => if e.2.writes cf key then max e.1 n else n) 0

def versionsAt (log : CommitLog K V) (cf : Nat) (key : K) (n : Nat) : CommitLog K V :=
  log.filter fun e => e.2.touches cf key && e.1 ≤ n

def stamp (start : Nat) (ws : List (WriteEntry K V)) : CommitLog K V :=
  ws.zipIdx.map fun (w, i) => (start + i, w)

omit [LinearOrder K] in
theorem mem_stamp {start n : Nat} (h : (n, w) ∈ stamp start ws) :
    w ∈ ws ∧ start ≤ n ∧ n < start + ws.length := by
  obtain ⟨⟨w', i⟩, hmem, heq⟩ := List.mem_map.mp h
  simp only [Prod.mk.injEq] at heq
  obtain ⟨rfl, rfl⟩ := heq
  obtain ⟨-, hlt, hget⟩ := List.mem_zipIdx hmem
  exact ⟨hget ▸ List.getElem_mem _, by omega, by omega⟩

theorem le_peekSeq {log : CommitLog K V} {n cf : Nat} {w : WriteEntry K V} {key : K}
    (h : (n, w) ∈ log) (hw : w.writes cf key = true) : n ≤ log.peekSeq cf key := by
  induction log with
  | nil => simp at h
  | cons e log ih =>
    rw [peekSeq, List.foldr_cons]
    rcases List.mem_cons.mp h with rfl | h
    · rw [if_pos hw]
      exact le_max_left ..
    · have := ih h
      rw [peekSeq] at this
      split
      case isTrue => exact this.trans (le_max_right ..)
      case isFalse => exact this

end CommitLog

-- A transaction at the point where it commits or prepares: its writes are those of the
-- deduplicated order.
structure Request (K V : Type) where
  isolation : IsolationLevel
  readSeq : Nat
  reads : List (Nat × K)
  writes : List (WriteEntry K V)

namespace Request

def needsCheck (r : Request K V) : Bool :=
  r.isolation = .snapshot ∨ r.isolation = .serializable

def hasRange (r : Request K V) : Bool :=
  r.writes.any WriteEntry.isRange

variable [ToString K]

def validateWriteConflicts (r : Request K V) (log : CommitLog K V) : Except OndaError Unit :=
  match r.writes.find? fun w => log.peekSeq w.cf w.key > r.readSeq with
  | some w =>
    let key := w.key
    .error (.conflict s!"write-write conflict on key {key}")
  | none => .ok ()

def validateReadConflicts (r : Request K V) (log : CommitLog K V) (spans : SpanIndex.Index K) :
    Except OndaError Unit :=
  r.reads.forM fun (cf, key) =>
    if log.peekSeq cf key > r.readSeq then .error (.conflict "read-set changed")
    else match spans.pointConflict cf key r.readSeq with
      | some seq => .error (.conflict (s!"read of key {key} is covered by a range delete committed at " ++
          s!"sequence {seq}, after this transaction's snapshot"))
      | none => .ok ()

def validateSpanConflicts (r : Request K V) (spans : SpanIndex.Index K) : Except OndaError Unit :=
  r.writes.forM fun w =>
    match w.op with
    | .range a b =>
      match spans.rangeConflict w.cf a b r.readSeq with
      | some seq => .error (.conflict (s!"range delete [{a}, {b}) overlaps a write committed at " ++
          s!"sequence {seq}, after this transaction's snapshot"))
      | none => .ok ()
    | .point a .. =>
      match spans.pointConflict w.cf a r.readSeq with
      | some seq => .error (.conflict (s!"write to key {a} is covered by a range delete committed at " ++
          s!"sequence {seq}, after this transaction's snapshot"))
      | none => .ok ()

def validateCommit (r : Request K V) (log : CommitLog K V) (spans : SpanIndex.Index K) :
    Except OndaError Unit := do
  if r.needsCheck then r.validateWriteConflicts log
  if r.isolation = .serializable then r.validateReadConflicts log spans

def validate (r : Request K V) (log : CommitLog K V) (spans : SpanIndex.Index K) :
    Except OndaError Unit := do
  r.validateCommit log spans
  if r.needsCheck then r.validateSpanConflicts spans

def markers (start : Nat) (ws : List (WriteEntry K V)) : List (SpanIndex.Marker K) :=
  (CommitLog.stamp start ws).map fun (seq, w) =>
    match w.op with
    | .range a b => ⟨w.cf, a, some b, seq⟩
    | .point a .. => ⟨w.cf, a, none, seq⟩

end Request

end OndaDb

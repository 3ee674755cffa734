import OndaDb.Prepared.Store

namespace OndaDb.Prepared

variable {I K V : Type}

-- What can happen to the store. The calls that write to the log are split where another thread can
-- come between; a crash keeps the unsynced frames it is given.
inductive Event (I K V : Type)
  | commit (ws : List (WriteEntry K V)) (start : Nat)
  | prepareAppend (id : I) (ws : List (WriteEntry K V))
  | prepareSync (fails : Bool)
  | prepareDone
  | commitDecide (id : I) (start : Nat)
  | commitFails (id : I) (start : Nat)
  | commitDone
  | abortAppend (id : I)
  | abortSync (fails : Bool)
  | abortDone
  | rotate
  | flush
  | sweep
  | unlink (i : Nat)
  | compact (keep : Item I K V → Bool)
  | crash (survives : Nat → Frame I K V → Bool)

-- A store with what its callers know: the prepares, commits and aborts that returned Ok, the ids
-- a decision was written for, the ids handed to `prepare`, and what compactions have dropped.
structure Run (I K V : Type) where
  store : Store I K V
  ticks : Nat
  inst : I → Nat
  used : List I
  prepared : List (I × List (WriteEntry K V))
  attempted : List I
  committed : List (I × List (WriteEntry K V) × Nat)
  aborted : List I
  dropped : List (Item I K V)

namespace Run

variable [DecidableEq I] [LinearOrder K] [ToString I] [ToString K]
variable (size : List (WriteEntry K V) → Nat)

def start (maxBytes : Nat) : Run I K V where
  store := .start maxBytes
  ticks := 0
  inst := fun _ => 0
  used := []
  prepared := []
  attempted := []
  committed := []
  aborted := []
  dropped := []

def idle (r : Run I K V) : Bool :=
  r.store.busy.isNone && !r.store.poisoned

def recoveredInst (r : Run I K V) (files : List (File I K V)) (id : I) : Nat :=
  match (Store.prepares files).find? (·.id = id) with
  | some p => p.inst
  | none => r.inst id

def exec (r : Run I K V) : Event I K V → Run I K V
  | .commit ws start =>
    if r.idle then
      { r with store := r.store.commit (stampItems (.commit r.ticks) start ws), ticks := r.ticks + 1 }
    else r
  | .prepareAppend id ws =>
    if r.idle then
      match r.store.checkPrepare size id ws with
      | .ok () =>
        { r with store := r.store.prepareAppend size id r.ticks ws, ticks := r.ticks + 1, used := id :: r.used }
      | .error _ => r
    else r
  | .prepareSync fails =>
    match r.store.busy with
    | some (.preparing e inst false) =>
      -- The call returns `wal closed`; the frame stays where it is.
      if !r.store.isOpen e.prepareGen then { r with store.busy := none }
      else if fails then { r with store.busy := none, store.poisoned := true }
      else { r with store := { r.store.sync e.prepareGen with busy := some (.preparing e inst true) } }
    | _ => r
  | .prepareDone =>
    match r.store.busy with
    | some (.preparing e inst true) =>
      { r with
        store := r.store.prepareDone e
        inst := fun id => if id = e.id then inst else r.inst id
        prepared := (e.id, e.writes) :: r.prepared }
    | _ => r
  | .commitDecide id start =>
    if r.idle then
      match r.store.registry.byId.lookup id with
      | some e => { r with store := r.store.commitDecide e (r.inst id) start, attempted := id :: r.attempted }
      | none => r
    else r
  | .commitFails id start =>
    if r.idle then
      match r.store.registry.byId.lookup id with
      | some e =>
        { r with
          store := { r.store.append (.decision id (r.inst id) (some (start, e.writes.length))) with
            poisoned := true }
          attempted := id :: r.attempted }
      | none => r
    else r
  | .commitDone =>
    match r.store.busy with
    | some (.committed id gen start) =>
      { r with
        store := r.store.decided id gen
        committed := ((r.store.registry.byId.lookup id).map fun e => (id, e.writes, start)).toList ++ r.committed }
    | _ => r
  | .abortAppend id =>
    if r.idle then
      match r.store.registry.byId.lookup id with
      | some _ => { r with store := r.store.abortAppend id (r.inst id), attempted := id :: r.attempted }
      | none => r
    else r
  | .abortSync fails =>
    match r.store.busy with
    | some (.aborting id gen false) =>
      if !r.store.isOpen gen then { r with store.busy := none }
      else if fails then { r with store.busy := none, store.poisoned := true }
      else { r with store := { r.store.sync gen with busy := some (.aborting id gen true) } }
    | _ => r
  | .abortDone =>
    match r.store.busy with
    | some (.aborting id gen true) => { r with store := r.store.decided id gen, aborted := id :: r.aborted }
    | _ => r
  | .rotate => if r.store.active.items.isEmpty then r else { r with store := r.store.rotate }
  | .flush => if r.store.poisoned then r else { r with store := r.store.flush }
  | .sweep => { r with store := r.store.sweep }
  | .unlink i => { r with store := r.store.unlink i }
  | .compact keep =>
    { r with store := r.store.compact keep, dropped := r.store.tables.filter (fun i => !keep i) ++ r.dropped }
  | .crash survives =>
    let files := Store.survivors survives r.store.files
    match Store.reopen size files r.store.tables r.store.floor r.store.registry.maxBytes with
    | .ok s => { r with store := s, inst := r.recoveredInst files }
    | .error _ => r

end Run

end OndaDb.Prepared

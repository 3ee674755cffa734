import OndaDb.Prepared.Isolation

-- The unified log of a database with prepared transactions: its generations, the memtables they
-- cover, and the bookkeeping that decides when a generation may be unlinked.
namespace OndaDb.Prepared

variable {I K V : Type}

-- A resolved prepare whose generations are not both unlinked.
structure Tombstone (I : Type) where
  id : I
  prepareGen : Nat
  decisionGen : Nat
  prepareDeleted : Bool
  decisionDeleted : Bool
  deriving DecidableEq, Repr

namespace Tombstone

def unlinked (gen : Nat) (t : Tombstone I) : Tombstone I :=
  { t with
    prepareDeleted := t.prepareDeleted || t.prepareGen = gen
    decisionDeleted := t.decisionDeleted || t.decisionGen = gen }

def retired (t : Tombstone I) : Bool :=
  t.prepareDeleted && t.decisionDeleted

end Tombstone

-- `flushed` holds the withheld generations in ascending order, `live` one occurrence of a generation
-- for every unresolved prepare in it.
structure WalGenState (I : Type) where
  flushed : List Nat
  live : List Nat
  tombs : List (Tombstone I)

namespace WalGenState

def new : WalGenState I :=
  ⟨[], [], []⟩

def pin (g : WalGenState I) (gen : Nat) : WalGenState I :=
  { g with live := gen :: g.live }

def recordPair (g : WalGenState I) (id : I) (prepareGen decisionGen : Nat) : WalGenState I :=
  { g with tombs := g.tombs ++ [⟨id, prepareGen, decisionGen, false, false⟩] }

def resolved (g : WalGenState I) (id : I) (prepareGen decisionGen : Nat) : WalGenState I :=
  { g with live := g.live.erase prepareGen }.recordPair id prepareGen decisionGen

def markFlushed (g : WalGenState I) (gen : Nat) : WalGenState I :=
  if gen ∈ g.flushed then g else { g with flushed := g.flushed.orderedInsert (· ≤ ·) gen }

def retirable (g : WalGenState I) (gen : Nat) : Bool :=
  gen ∉ g.live ∧
  -- Every prepare that lived here has a decision that is itself flushed or already gone.
  (∀ t ∈ g.tombs, t.prepareGen = gen → t.decisionDeleted ∨ t.decisionGen ∈ g.flushed) ∧
  -- A decision waits for its prepare, unless they share the generation.
  ∀ t ∈ g.tombs, t.decisionGen = gen → t.prepareGen = gen ∨ t.prepareDeleted

def nextRetirable (g : WalGenState I) : Option Nat :=
  g.flushed.find? g.retirable

def retire (g : WalGenState I) (gen : Nat) : WalGenState I × List I :=
  let tombs := g.tombs.map (Tombstone.unlinked gen)
  ({ g with
      flushed := g.flushed.filter (· ≠ gen)
      tombs := tombs.filter fun t => !Tombstone.retired t },
    (tombs.filter Tombstone.retired).map (·.id))

-- The retirement fixpoint: the generations to unlink, in order, and the ids that are done. Every
-- round takes one of the withheld generations.
def sweepLoop : Nat → WalGenState I → List Nat × List I × WalGenState I
  | 0,     g => ([], [], g)
  | n + 1, g =>
    match g.nextRetirable with
    | none => ([], [], g)
    | some gen =>
      let (g, ids) := g.retire gen
      let (unlink, retired, g) := sweepLoop n g
      (gen :: unlink, ids ++ retired, g)

def sweep (g : WalGenState I) : List Nat × List I × WalGenState I :=
  sweepLoop g.flushed.length g

end WalGenState

inductive Source (I : Type)
  | commit (n : Nat)
  | prepared (id : I)
  deriving DecidableEq, Repr

structure Item (I K V : Type) where
  seq : Nat
  write : WriteEntry K V
  source : Source I
  deriving DecidableEq, Repr

def stampItems (source : Source I) (start : Nat) (ws : List (WriteEntry K V)) : List (Item I K V) :=
  (CommitLog.stamp start ws).map fun (seq, w) => ⟨seq, w, source⟩

-- The frames of the unified log. `inst` numbers the prepares of a run; it is not on disk and
-- nothing reads it.
inductive Frame (I K V : Type)
  | data (items : List (Item I K V))
  | prepare (id : I) (inst : Nat) (writes : List (WriteEntry K V))
  | decision (id : I) (inst : Nat) (commit : Option (Nat × Nat))
  deriving DecidableEq, Repr

structure File (I K V : Type) where
  gen : Nat
  frames : List (Frame I K V × Bool)
  deriving DecidableEq, Repr

structure Sealed (I K V : Type) where
  items : List (Item I K V)
  gens : List Nat

-- A call between its write to the log and its bookkeeping, under the commit lock. Flush workers
-- and rotations do not take that lock.
inductive Busy (I K V : Type)
  | preparing (entry : Entry I K V) (inst : Nat) (synced : Bool)
  | committed (id : I) (gen start : Nat)
  | aborting (id : I) (gen : Nat) (synced : Bool)

def Busy.gen : Busy I K V → Nat
  | preparing entry _ _ => entry.prepareGen
  | committed _ gen _ => gen
  | aborting _ gen _ => gen

structure Store (I K V : Type) where
  files : List (File I K V)
  tables : List (Item I K V)
  floor : Nat
  active : Sealed I K V
  gen : Nat
  imms : List (Sealed I K V)
  registry : Registry I K V
  gens : WalGenState I
  -- The sweeps under way: the generations still to unlink and the ids to forget then.
  unlinking : List (List Nat × List I)
  busy : Option (Busy I K V)
  poisoned : Bool

namespace Store

variable [DecidableEq I] [LinearOrder K] [ToString I] [ToString K]

variable (size : List (WriteEntry K V) → Nat)

def start (maxBytes : Nat) : Store I K V where
  files := [⟨0, []⟩]
  tables := []
  floor := 0
  active := ⟨[], [0]⟩
  gen := 0
  imms := []
  registry := .new maxBytes
  gens := .new
  unlinking := []
  busy := none
  poisoned := false

def append (s : Store I K V) (f : Frame I K V) : Store I K V :=
  { s with files := s.files.map fun file =>
    if file.gen = s.gen then { file with frames := file.frames ++ [(f, false)] } else file }

def sync (s : Store I K V) (gen : Nat) : Store I K V :=
  { s with files := s.files.map fun file =>
    if file.gen = gen then { file with frames := file.frames.map fun f => (f.1, true) } else file }

-- The handle of a generation is closed by the rotation that replaces it.
def isOpen (s : Store I K V) (gen : Nat) : Bool :=
  gen = s.gen

def commit (s : Store I K V) (items : List (Item I K V)) : Store I K V :=
  { s.append (.data items) with active := { s.active with items := items ++ s.active.items } }

def checkPrepare (s : Store I K V) (id : I) (ws : List (WriteEntry K V)) : Except OndaError Unit := do
  if s.poisoned then .error (.poisoned "database is poisoned")
  if s.registry.knows id then
    .error (.alreadyExists s!"prepared transaction {id} is already registered")
  Session.checkOverlap s.registry ws
  s.registry.checkCapacity (size ws)

def prepareAppend (s : Store I K V) (id : I) (inst : Nat) (ws : List (WriteEntry K V)) : Store I K V :=
  { s.append (.prepare id inst ws) with busy := some (.preparing ⟨id, ws, size ws, s.gen⟩ inst false) }

def prepareDone (s : Store I K V) (e : Entry I K V) : Store I K V :=
  { s with
    registry := s.registry.register e
    gens := s.gens.pin e.prepareGen
    busy := none }

-- The decision frame, its sync and the records, under one writer slot: no rotation comes between.
def commitDecide (s : Store I K V) (e : Entry I K V) (inst start : Nat) : Store I K V :=
  let s := (s.append (.decision e.id inst (some (start, e.writes.length)))).sync s.gen
  { s with
    active := { s.active with items := stampItems (.prepared e.id) start e.writes ++ s.active.items }
    busy := some (.committed e.id s.gen start) }

def abortAppend (s : Store I K V) (id : I) (inst : Nat) : Store I K V :=
  { s.append (.decision id inst none) with busy := some (.aborting id s.gen false) }

def decided (s : Store I K V) (id : I) (gen : Nat) : Store I K V :=
  match s.registry.resolve id with
  | some (e, reg) => { s with registry := reg, gens := s.gens.resolved id e.prepareGen gen, busy := none }
  | none => { s with busy := none }

-- The answer for an id that is not registered: a retry of a resolved one is Ok.
def commitRetry (s : Store I K V) (id : I) : Except OndaError Unit :=
  if s.registry.isRetiring id then .ok () else .error .notFound

def rotate (s : Store I K V) : Store I K V :=
  { s with
    files := s.files ++ [⟨s.gen + 1, []⟩]
    imms := s.imms ++ [s.active]
    active := ⟨[], [s.gen + 1]⟩
    gen := s.gen + 1 }

def lowestUnflushedGen (gen : Nat) (sealeds : List (Sealed I K V)) : Nat :=
  ((sealeds.flatMap Sealed.gens).min?).getD gen

-- The oldest sealed memtable: one edit holds its table and the raised floor, then its generations
-- are handed to the pins.
def flush (s : Store I K V) : Store I K V :=
  match s.imms with
  | [] => s
  | imm :: imms =>
    { s with
      tables := imm.items ++ s.tables
      floor := max s.floor (lowestUnflushedGen s.gen (imms ++ [s.active]))
      imms := imms
      gens := imm.gens.foldl WalGenState.markFlushed s.gens }

def sweep (s : Store I K V) : Store I K V :=
  match s.gens.sweep with
  | (unlink, retired, gens) => { s with gens := gens, unlinking := s.unlinking ++ [(unlink, retired)] }

def unlink (s : Store I K V) (i : Nat) : Store I K V :=
  match s.unlinking[i]? with
  | some (g :: gs, ids) =>
    { s with
      files := s.files.filter (·.gen ≠ g)
      unlinking := s.unlinking.set i (gs, ids) }
  | some ([], ids) =>
    { s with
      registry := ids.foldl Registry.forget s.registry
      unlinking := s.unlinking.eraseIdx i }
  | none => s

def compact (s : Store I K V) (keep : Item I K V → Bool) : Store I K V :=
  { s with tables := s.tables.filter keep }

structure RecoveredPrepare (I K V : Type) where
  id : I
  inst : Nat
  writes : List (WriteEntry K V)
  gen : Nat

structure RecoveredDecision (I : Type) where
  id : I
  inst : Nat
  commit : Option (Nat × Nat)
  gen : Nat

def prepares (files : List (File I K V)) : List (RecoveredPrepare I K V) :=
  files.flatMap fun file => file.frames.filterMap fun f =>
    match f.1 with
    | .prepare id inst ws => some ⟨id, inst, ws, file.gen⟩
    | _ => none

def decisions (files : List (File I K V)) : List (RecoveredDecision I) :=
  files.flatMap fun file => file.frames.filterMap fun f =>
    match f.1 with
    | .decision id inst commit => some ⟨id, inst, commit, file.gen⟩
    | _ => none

def replayed (floor : Nat) (files : List (File I K V)) : List (Item I K V) :=
  (files.filter fun file => floor ≤ file.gen).flatMap fun file => file.frames.flatMap fun f =>
    match f.1 with
    | .data items => items
    | _ => []

def newer (best : Option (RecoveredDecision I)) (d : RecoveredDecision I) : Option (RecoveredDecision I) :=
  match best with
  | some b => if b.gen ≤ d.gen then some d else some b
  | none => some d

def decisionFor (ds : List (RecoveredDecision I)) (id : I) : Option (RecoveredDecision I) :=
  (ds.filter (·.id = id)).foldl newer none

-- The second pass: what one prepare adds to the memtable, the registry and the pins.
def resolveRecovered (ds : List (RecoveredDecision I)) (s : Store I K V) (p : RecoveredPrepare I K V) :
    Store I K V :=
  match decisionFor ds p.id with
  | some ⟨_, _, some (start, _), gen⟩ =>
    let s := if s.floor ≤ gen then
      { s with active := { s.active with
        items := stampItems (.prepared p.id) start p.writes ++ s.active.items } }
      else s
    { s with gens := s.gens.recordPair p.id p.gen gen }
  | some ⟨_, _, none, gen⟩ => { s with gens := s.gens.recordPair p.id p.gen gen }
  | none =>
    { s with
      registry := s.registry.register ⟨p.id, p.writes, size p.writes, p.gen⟩
      gens := s.gens.pin p.gen }

def opened (files : List (File I K V)) (tables : List (Item I K V)) (floor maxBytes : Nat) :
    Store I K V :=
  let gen := max (((files.map File.gen).max?.map (· + 1)).getD 0) floor
  { files := files ++ [⟨gen, []⟩]
    tables := tables
    floor := floor
    active := ⟨replayed floor files, files.map File.gen ++ [gen]⟩
    gen := gen
    imms := []
    registry := .new maxBytes
    gens := .new
    unlinking := []
    busy := none
    poisoned := false }

-- Opens what is on disk. Two prepare records with one id cannot be told apart.
def reopen (files : List (File I K V)) (tables : List (Item I K V)) (floor maxBytes : Nat) :
    Except OndaError (Store I K V) :=
  if ((prepares files).map RecoveredPrepare.id).Nodup then
    .ok ((prepares files).foldl (resolveRecovered size (decisions files))
      (opened files tables floor maxBytes))
  else .error (.corruption ("two prepare records share a transaction id; an id may only be reused " ++
    "once the previous instance is resolved and its WAL generations are unlinked"))

def survivors (survives : Nat → Frame I K V → Bool) (files : List (File I K V)) : List (File I K V) :=
  files.map fun file => { file with
    frames := (file.frames.filter fun f => f.2 || survives file.gen f.1).map fun f => (f.1, true) }

end Store

end OndaDb.Prepared

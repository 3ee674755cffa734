import OndaDb.Parts.Basic

-- Part moves, the deferred deletion of files, and the orphan sweep of an open.
namespace OndaDb.Parts

structure Move (B : Type) where
  tables : List (Table B)
  target : Option String
  copied : List (Nat × Ext)
  deriving DecidableEq

structure State (R B : Type) where
  tiers : Tiers
  phase : Phase
  -- The nonce in the names of this database's objects, minted when a shared tier is declared.
  nonce : Option Nat
  families : List String
  catalog : List (Table B)
  files : Map (Loc R) (Option B)
  nextFileId : Nat
  staged : List (Table B)
  moves : List (Move B)
  -- The files a committed edit has made obsolete and that `retire_file` is still to be called for.
  retiring : List (Loc R)
  disabled : Nat
  pending : List (Loc R)
  -- Between the check of the pause and the worker's queue, or the unlink where there is no worker.
  dispatched : List (Loc R)
  paced : Bool
  queue : List (Loc R)

inductive Event (R B : Type)
  -- A flush, a compaction, an ingestion or an attach finishes the files of a new table.
  | stage (cf : String) (klog : B) (vlog : Option B)
  | abandon (t : Table B)
  -- One edit of the catalog: a flush adds, a compaction adds and removes, excise and FIFO remove.
  | edit (adds drops : List (Table B))
  | moveStart (tables : List (Table B)) (target : Option String)
  | copyStart (m : Move B) (t : Table B) (ext : Ext)
  | copyEnd (m : Move B) (t : Table B) (ext : Ext)
  | moveFail (m : Move B)
  | flip (m : Move B)
  | retire (l : Loc R)
  | pause
  | resume
  | dispatch (l : Loc R)
  | work
  | crash
  | «open» (tiers : Tiers)
  | sweep (cf : String) (location : Option String) (id : Nat) (ext : Ext)
  | opened

namespace State

variable {R B : Type} [DecidableEq R] [DecidableEq B] (place : Backend → String → R)

def locsOf (s : State R B) (t : Table B) : List (Loc R) :=
  s.tiers.pathFor place t .klog :: (t.vlog.map fun _ => s.tiers.pathFor place t .vlog).toList

def waiting (s : State R B) : List (Loc R) :=
  s.retiring ++ s.pending ++ s.dispatched ++ s.queue

def remove (s : State R B) (l : Loc R) : State R B :=
  { s with files := s.files.erase l }

def relocated (s : State R B) (target : Option String) (t : Table B) : Table B :=
  { t with
    tier := target
    object := if s.tiers.tierIsShared target then s.nonce.map (⟨t.cf, ·, t.id⟩) else none }

-- A local source is asked, a remote one has what the catalog says.
def sourceHasVlog (s : State R B) (t : Table B) : Bool :=
  if s.tiers.tierIsLocal t.tier then (s.files.lookup (s.tiers.pathFor place t .vlog)).isSome
  else t.vlog.isSome

def copiesOf (s : State R B) (t : Table B) : List Ext :=
  .klog :: if s.sourceHasVlog place t then [.vlog] else []

-- What `relocate_part` retires of a source, and what `retire_table_files` does of a dropped table.
def sourceFiles (s : State R B) (t : Table B) : List (Loc R) :=
  (s.copiesOf place t).map (s.tiers.pathFor place t)

def isForeignMount (s : State R B) (t : Table B) : Bool :=
  t.object.any fun o => s.nonce ≠ some o.nonce

def tableFiles (s : State R B) (t : Table B) : List (Loc R) :=
  if s.isForeignMount t || s.tiers.tierIsShared t.tier then []
  else if s.tiers.tierIsLocal t.tier || t.vlog.isSome
  then [s.tiers.pathFor place t .klog, s.tiers.pathFor place t .vlog]
  else [s.tiers.pathFor place t .klog]

def exec (s : State R B) : Event R B → State R B
  | .stage cf klog vlog =>
    let t : Table B := ⟨cf, s.nextFileId, none, none, klog, vlog⟩
    let files := s.files.insert (s.tiers.pathFor place t .klog) (some klog)
    { s with
      files := vlog.elim files fun b => files.insert (s.tiers.pathFor place t .vlog) (some b)
      nextFileId := s.nextFileId + 1
      staged := t :: s.staged }
  | .abandon t =>
    { s with
      staged := s.staged.filter (· ≠ t)
      retiring := s.retiring ++ [s.tiers.pathFor place t .klog, s.tiers.pathFor place t .vlog] }
  | .edit adds drops =>
    { s with
      catalog := s.catalog.filter (· ∉ drops) ++ adds
      staged := s.staged.filter (· ∉ adds)
      retiring := s.retiring ++ drops.flatMap (s.tableFiles place) }
  | .moveStart tables target => { s with moves := ⟨tables, target, []⟩ :: s.moves }
  -- `Storage::create` of a local tier truncates; an object store sees the upload when it is complete.
  | .copyStart m t ext =>
    match s.tiers.storageFor m.target with
    | .disk => { s with files := s.files.insert (s.tiers.pathFor place (s.relocated m.target t) ext) none }
    | .store _ _ => s
  | .copyEnd m t ext =>
    { s with
      files := s.files.insert (s.tiers.pathFor place (s.relocated m.target t) ext)
        ((s.files.lookup (s.tiers.pathFor place t ext)).getD none)
      moves := { m with copied := (t.id, ext) :: m.copied } :: s.moves.erase m }
  | .moveFail m => { s with moves := s.moves.erase m }
  | .flip m =>
    { s with
      catalog := s.catalog.map fun t => if t ∈ m.tables then s.relocated m.target t else t
      moves := s.moves.erase m
      retiring := s.retiring ++ m.tables.flatMap (s.sourceFiles place) }
  | .retire l =>
    if 0 < s.disabled then { s with retiring := s.retiring.erase l, pending := s.pending ++ [l] }
    else { s with retiring := s.retiring.erase l, dispatched := s.dispatched ++ [l] }
  | .pause => { s with disabled := s.disabled + 1 }
  | .resume =>
    if s.disabled - 1 = 0
    then { s with disabled := 0, pending := [], dispatched := s.dispatched ++ s.pending }
    else { s with disabled := s.disabled - 1 }
  | .dispatch l =>
    if s.paced then { s with dispatched := s.dispatched.erase l, queue := s.queue ++ [l] }
    else { s with dispatched := s.dispatched.erase l }.remove l
  | .work =>
    match s.queue with
    | l :: rest => { s with queue := rest }.remove l
    | [] => s
  | .crash =>
    { s with
      phase := .closed, staged := [], moves := [], retiring := [], disabled := 0, pending := [], dispatched := []
      queue := [] }
  | .open tiers => { s with phase := .opening, tiers }
  | .sweep cf location id ext =>
    if sstIsMisplaced (manifestTier s.catalog cf id) location
    then s.remove ⟨s.tiers.rootAt place location, cfDirName cf, .table id ext⟩
    else s
  | .opened => { s with phase := .running }

-- What the callers do. The range locks keep compactions, evictions and other moves off the tables of a
-- move, and a move skips the tables that are on its target or on a shared tier.
def Enabled (s : State R B) : Event R B → Prop
  | .stage cf _ _ => s.phase = .running ∧ cf ∈ s.families
  | .abandon t => t ∈ s.staged
  | .edit adds drops => s.phase = .running ∧ (∀ t ∈ adds, t ∈ s.staged) ∧
    ∀ t ∈ drops, t ∈ s.catalog ∧ ∀ m ∈ s.moves, t ∉ m.tables
  | .moveStart tables target => s.phase = .running ∧ tables ≠ [] ∧ s.tiers.isKnown target ∧
    (s.tiers.tierIsShared target → s.nonce.isSome) ∧
    ∀ t ∈ tables, t ∈ s.catalog ∧ t.tier ≠ target ∧ ¬s.tiers.tierIsShared t.tier ∧ ∀ m ∈ s.moves, t ∉ m.tables
  | .copyStart m t ext => m ∈ s.moves ∧ t ∈ m.tables ∧ ext ∈ s.copiesOf place t ∧ (t.id, ext) ∉ m.copied
  | .copyEnd m t ext => m ∈ s.moves ∧ t ∈ m.tables ∧ ext ∈ s.copiesOf place t ∧ (t.id, ext) ∉ m.copied ∧
    ((s.files.lookup (s.tiers.pathFor place t ext)).getD none).isSome
  | .moveFail m => m ∈ s.moves
  | .flip m => m ∈ s.moves ∧ ∀ t ∈ m.tables, ∀ ext ∈ s.copiesOf place t, (t.id, ext) ∈ m.copied
  | .retire l => l ∈ s.retiring
  | .pause => s.phase = .running
  | .resume => 0 < s.disabled
  | .dispatch l => l ∈ s.dispatched
  | .work => s.queue ≠ []
  | .crash => True
  | .open _ => s.phase = .closed
  | .sweep cf location id ext => s.phase = .opening ∧ cf ∈ s.families ∧ location ∈ s.tiers.orphanSweepLocations ∧
    ¬(s.tiers.storageFor location).isReadOnly ∧
    (s.files.lookup ⟨s.tiers.rootAt place location, cfDirName cf, .table id ext⟩).isSome
  | .opened => s.phase = .opening

instance (s : State R B) : DecidablePred (s.Enabled place) :=
  fun e => by cases e <;> (unfold Enabled; infer_instance)

def executes (s : State R B) : Event R B → Option (Loc R)
  | .dispatch l => if s.paced then none else some l
  | .work => s.queue.head?
  | _ => none

-- A move writes to no path that a table of the catalog has or that a deletion task waits for, and an open
-- leaves every tier that holds objects declared shared.
def Clear (s : State R B) : Event R B → Prop
  | .moveStart tables target => ∀ t ∈ tables, ∀ ext ∈ [Ext.klog, .vlog],
    s.tiers.pathFor place (s.relocated target t) ext ∉ s.waiting ∧
    ∀ t' ∈ s.catalog, s.tiers.pathFor place (s.relocated target t) ext ∉ s.locsOf place t'
  | .open tiers => ∀ t ∈ s.catalog, t.object.isSome → tiers.tierIsShared t.tier
  | _ => True

instance (s : State R B) : DecidablePred (s.Clear place) :=
  fun e => by cases e <;> (unfold Clear; infer_instance)

-- An open finds every table where the last one had it, and no location it sweeps under another tier's name
-- is the root of a table.
def Apart (s : State R B) : Event R B → Prop
  | .open tiers => ∀ t ∈ s.catalog, s.tiers.SamePaths place tiers t ∧ tiers.SweepsApart place t
  | _ => True

instance (s : State R B) : DecidablePred (s.Apart place) :=
  fun e => by cases e <;> (unfold Apart; infer_instance)

def Intact (s : State R B) (t : Table B) : Prop :=
  Parts.Intact place s.tiers s.files t

structure AtRest (s : State R B) : Prop where
  phase : s.phase = .closed
  staged : s.staged = []
  moves : s.moves = []
  waiting : s.waiting = []
  distinct : ∀ t ∈ s.catalog, ∀ t' ∈ s.catalog, t.id = t'.id → t = t'
  fresh : ∀ t ∈ s.catalog, t.id < s.nextFileId

end State

end OndaDb.Parts

import OndaDb.Parts.Relocate

-- The deletion pause beside everything that takes a file away: the deletion tasks, the renames of
-- `detach_part`, and the directories that `drop_column_family` and `clear_column_family` remove.
namespace OndaDb.Parts.Pause

structure State (R B : Type) where
  db : Parts.State R B
  toRename : List (Loc R)
  -- The families whose directory is still to be removed: the lifecycle lock is held for them.
  removing : List String
  -- Where moves write whose family is gone. Their flip will be refused.
  stale : List (Loc R)

inductive Event (R B : Type)
  | db (e : Parts.Event R B)
  | detach (tables : List (Table B))
  | rename (src dst : Loc R)
  | drop (cf : String)
  | removeDirAll (cf : String)
  | staleCopy (l : Loc R)

namespace State

variable {R B : Type} [DecidableEq R] [DecidableEq B] (place : Backend → String → R)

variable (below : String → Loc R → Bool)

def isOf (cf : String) (m : Move B) : Bool :=
  m.tables.any (·.cf = cf)

def destsOf (s : Parts.State R B) (m : Move B) : List (Loc R) :=
  m.tables.flatMap fun t => [Ext.klog, .vlog].map (s.tiers.pathFor place (s.relocated m.target t))

-- The part of a drop that its edit publishes. A job of the family that has staged tables will find it gone and
-- delete them; the tables on named tiers are retired; the rest goes with the directory.
def dropped (s : Parts.State R B) (cf : String) : Parts.State R B :=
  { s with
    catalog := s.catalog.filter (·.cf ≠ cf)
    staged := s.staged.filter (·.cf ≠ cf)
    moves := s.moves.filter (!isOf cf ·)
    retiring := s.retiring ++ (s.catalog.filter fun t => t.cf = cf ∧ t.tier.isSome).flatMap (s.tableFiles place) ++
      (s.staged.filter (·.cf = cf)).flatMap fun t => [Ext.klog, .vlog].map (s.tiers.pathFor place t) }

def detached (s : Parts.State R B) (tables : List (Table B)) : Parts.State R B :=
  { s with catalog := s.catalog.filter (· ∉ tables) }

def exec (s : State R B) : Event R B → State R B
  | .db e => { s with db := s.db.exec place e }
  | .detach tables =>
    { s with db := detached s.db tables, toRename := s.toRename ++ tables.flatMap (s.db.locsOf place) }
  | .rename src dst =>
    match s.db.files.lookup src with
    | none => { s with toRename := s.toRename.erase src }
    | some c =>
      { s with
        toRename := s.toRename.erase src
        db := { s.db with files := (s.db.files.erase src).insert dst c } }
  | .drop cf =>
    { s with
      db := dropped place s.db cf
      removing := cf :: s.removing
      stale := s.stale ++ (s.db.moves.filter (isOf cf)).flatMap (destsOf place s.db) }
  | .removeDirAll cf =>
    { s with
      removing := s.removing.erase cf
      db := { s.db with files := s.db.files.retain fun l _ => !below cf l } }
  | .staleCopy l => { s with db := { s.db with files := s.db.files.insert l none } }

def isRunning : Parts.Event R B → Bool
  | .crash | .open _ | .sweep .. | .opened => false
  | _ => true

-- A move is of one family, and nothing is staged for a family that is being removed.
def Fits (s : State R B) : Parts.Event R B → Prop
  | .stage cf _ _ => cf ∉ s.removing
  | .moveStart tables _ => ∀ t ∈ tables, ∀ t' ∈ tables, t.cf = t'.cf
  | _ => True

instance (s : State R B) : DecidablePred s.Fits := fun e =>
  have : Decidable True := .isTrue trivial
  e.casesOn (motive := fun e => Decidable (s.Fits e))
    (fun cf _ _ => inferInstanceAs (Decidable (cf ∉ s.removing))) (fun _ => this) (fun _ _ => this)
    (fun tables _ => inferInstanceAs (Decidable (∀ t ∈ tables, ∀ t' ∈ tables, t.cf = t'.cf)))
    (fun _ _ _ => this) (fun _ _ _ => this) (fun _ => this) (fun _ => this) (fun _ => this) this this
    (fun _ => this) this this (fun _ => this) (fun _ _ _ _ => this) this

def Enabled (s : State R B) : Event R B → Prop
  | .db e => s.db.Enabled place e ∧ isRunning e ∧ s.Fits e
  | .detach tables =>
    ∀ t ∈ tables, t ∈ s.db.catalog ∧ ¬s.db.tiers.tierIsShared t.tier ∧ ∀ m ∈ s.db.moves, t ∉ m.tables
  | .rename src _ => src ∈ s.toRename
  | .drop cf => cf ∉ s.removing
  | .removeDirAll cf => cf ∈ s.removing
  | .staleCopy l => l ∈ s.stale

instance (s : State R B) : DecidablePred (s.Enabled place) :=
  fun e => by cases e <;> (unfold Enabled; infer_instance)

def Spared (s : State R B) (l : Loc R) : Prop :=
  ∀ cf ∈ s.removing, below cf l = false

instance (s : State R B) (l : Loc R) : Decidable (s.Spared below l) := by
  unfold Spared
  infer_instance

def newPaths (s : Parts.State R B) : Parts.Event R B → List (Loc R)
  | .stage cf klog vlog =>
    [Ext.klog, .vlog].map (s.tiers.pathFor place (⟨cf, s.nextFileId, none, none, klog, vlog⟩ : Table B))
  | .moveStart tables target => destsOf place s ⟨tables, target, []⟩
  | _ => []

-- Drops, clears and detaches commit while no pause is held, a directory that is being removed holds nothing of
-- another family, and no move writes to a path that is in use or that a deletion task waits for.
def Orderly (s : State R B) : Event R B → Prop
  | .db e => s.db.Clear place e ∧ ∀ l ∈ newPaths place s.db e, s.Spared below l
  | .detach _ => s.db.disabled = 0
  | .drop cf => s.db.disabled = 0 ∧
    (∀ t ∈ s.db.catalog ++ s.db.staged, t.cf ≠ cf → ∀ l ∈ s.db.locsOf place t, below cf l = false) ∧
    ∀ m ∈ s.db.moves, ¬isOf cf m → ∀ l ∈ destsOf place s.db m, below cf l = false
  | _ => True

instance (s : State R B) : DecidablePred (s.Orderly place below) :=
  fun e => by cases e <;> (unfold Orderly; infer_instance)

def Names (s : State R B) (l : Loc R) : Prop :=
  ∃ t ∈ s.db.catalog, l ∈ s.db.locsOf place t

instance (s : State R B) (l : Loc R) : Decidable (s.Names place l) :=
  inferInstanceAs (Decidable (∃ t ∈ s.db.catalog, _))

def Exists (s : State R B) (l : Loc R) : Prop :=
  (s.db.files.lookup l).isSome

instance (s : State R B) (l : Loc R) : Decidable (s.Exists l) :=
  inferInstanceAs (Decidable ((s.db.files.lookup l).isSome = true))

def Step (s s' : State R B) : Prop :=
  ∃ e, s.Enabled place e ∧ s' = s.exec place below e

def OrderlyStep (s s' : State R B) : Prop :=
  ∃ e, s.Enabled place e ∧ s.Orderly place below e ∧ s' = s.exec place below e

def Paused (P : State R B → State R B → Prop) (s s' : State R B) : Prop :=
  P s s' ∧ 0 < s'.db.disabled

structure Opened (s : State R B) : Prop where
  phase : s.db.phase = .running
  staged : s.db.staged = []
  moves : s.db.moves = []
  waiting : s.db.waiting = []
  disabled : s.db.disabled = 0
  idle : s.toRename = [] ∧ s.removing = [] ∧ s.stale = []
  distinct : ∀ t ∈ s.db.catalog, ∀ t' ∈ s.db.catalog, t.id = t'.id → t = t'
  fresh : ∀ t ∈ s.db.catalog, t.id < s.db.nextFileId
  shared : ∀ t ∈ s.db.catalog, t.object.isSome → s.db.tiers.tierIsShared t.tier
  found : ∀ l, s.Names place l → s.Exists l

end State

end OndaDb.Parts.Pause

import OndaDb.Parts.Basic

-- `detach_part`, step by step, and the opens that follow it.
namespace OndaDb.Parts.Detach

structure Part (R B : Type) where
  cf : String
  partition : String
  tables : List (Table B)
  tiers : Tiers
  aside : R × String
  deriving DecidableEq

-- How far a call has come: the catalog edit, the directory, and the files that are still to be renamed.
inductive Stage (B : Type)
  | edit
  | createDir
  | rename (files : List (Table B × Ext))
  deriving DecidableEq

structure State (R B : Type) where
  tiers : Tiers
  phase : Phase
  families : List String
  catalog : List (Table B)
  files : Map (Loc R) (Option B)
  job : Option (Part R B × Stage B)
  parts : List (Part R B)

inductive Event (R B : Type)
  | call (cf partition : String)
  | edit
  | createDir
  | rename
  | fail
  | crash
  | «open» (tiers : Tiers)
  | sweep (cf : String) (location : Option String) (id : Nat) (ext : Ext)
  | opened

variable {R B : Type} [DecidableEq R] [DecidableEq B] (place : Backend → String → R)

namespace Part

def home (p : Part R B) (t : Table B) (ext : Ext) : Loc R :=
  p.tiers.pathFor place t ext

def dest (p : Part R B) (t : Table B) (ext : Ext) : Loc R :=
  ⟨p.aside.1, p.aside.2, .table t.id ext⟩

end Part

namespace State

-- The partition of a table of the bottom level, and the place of the directory for a detached partition.
variable (partition : Table B → Option String) (aside : String → String → R × String)

def bottomPartitionHandles (s : State R B) (cf name : String) : List (Table B) :=
  s.catalog.filter fun t => t.cf = cf ∧ partition t = some name

def exec (s : State R B) : Event R B → State R B
  | .call cf name =>
    let p : Part R B := ⟨cf, name, s.bottomPartitionHandles partition cf name, s.tiers, aside cf name⟩
    { s with job := some (p, .edit), parts := p :: s.parts }
  | .edit =>
    match s.job with
    | some (p, .edit) => { s with job := some (p, .createDir), catalog := s.catalog.filter (· ∉ p.tables) }
    | _ => s
  | .createDir =>
    match s.job with
    | some (p, .createDir) =>
      { s with job := some (p, .rename (p.tables.flatMap fun t => [(t, .klog), (t, .vlog)])) }
    | _ => s
  -- A value log that does not exist is skipped, a key log that does not is an error.
  | .rename =>
    match s.job with
    | some (p, .rename ((t, ext) :: rest)) =>
      match s.files.lookup (p.home place t ext), ext with
      | some c, _ =>
        { s with
          job := some (p, .rename rest)
          files := (s.files.erase (p.home place t ext)).insert (p.dest t ext) c }
      | none,   .vlog => { s with job := some (p, .rename rest) }
      | none,   .klog => { s with job := none }
    | _ => { s with job := none }
  | .fail => { s with job := none }
  | .crash => { s with phase := .closed, job := none }
  | .open tiers => { s with phase := .opening, tiers }
  | .sweep cf location id ext =>
    if sstIsMisplaced (manifestTier s.catalog cf id) location
    then { s with files := s.files.erase ⟨s.tiers.rootAt place location, cfDirName cf, .table id ext⟩ }
    else s
  | .opened => { s with phase := .running }

-- `detach_part` refuses a partition without tables and one with a table on a shared tier.
def Enabled (s : State R B) : Event R B → Prop
  | .call cf name => s.phase = .running ∧ s.job = none ∧ s.bottomPartitionHandles partition cf name ≠ [] ∧
    ∀ t ∈ s.bottomPartitionHandles partition cf name, ¬s.tiers.tierIsShared t.tier
  | .edit => s.phase = .running
  | .createDir => s.phase = .running
  | .rename => s.phase = .running
  | .fail => s.phase = .running
  | .crash => True
  | .open _ => s.phase = .closed
  | .sweep cf location id ext => s.phase = .opening ∧ cf ∈ s.families ∧ location ∈ s.tiers.orphanSweepLocations ∧
    ¬(s.tiers.storageFor location).isReadOnly ∧
    (s.files.lookup ⟨s.tiers.rootAt place location, cfDirName cf, .table id ext⟩).isSome
  | .opened => s.phase = .opening

instance (s : State R B) : DecidablePred (s.Enabled place partition) :=
  fun e => by cases e <;> (unfold Enabled; infer_instance)

def Intact (s : State R B) (t : Table B) : Prop :=
  Parts.Intact place s.tiers s.files t

def HeldAt (s : State R B) (t : Table B) (ext : Ext) (l : Loc R) : Prop :=
  ∀ b, t.content ext = some b → s.files.lookup l = some (some b)

instance (s : State R B) (t : Table B) (ext : Ext) (l : Loc R) : Decidable (s.HeldAt t ext l) :=
  decidable_of_iff (∀ b ∈ (t.content ext).toList, s.files.lookup l = some (some b)) <| by
    unfold HeldAt
    simp only [Option.mem_toList]

-- All tables of the part are in the catalog and readable, or none is and all its files are there.
def Whole (s : State R B) (p : Part R B) : Prop :=
  (∀ t ∈ p.tables, t ∈ s.catalog ∧ s.Intact place t) ∨
  ∀ t ∈ p.tables, t ∉ s.catalog ∧ ∀ ext, s.HeldAt t ext (p.home place t ext) ∨ s.HeldAt t ext (p.dest t ext)

-- A directory of a family on the default tier, where the sweep deletes every table it does not know.
def InDefaultDir (s : State R B) (tiers : Tiers) (l : Loc R) : Prop :=
  l.root = tiers.rootAt place none ∧ ∃ cf ∈ s.families, l.dir = cfDirName cf

instance (s : State R B) (tiers : Tiers) (l : Loc R) : Decidable (s.InDefaultDir place tiers l) :=
  inferInstanceAs (Decidable (_ ∧ ∃ cf ∈ s.families, _))

-- An open finds the tables of the catalog where the last one had them and apart from what it sweeps under
-- another tier's name, and no file of a detached part only in a directory of the default tier.
def Settled (s : State R B) : Event R B → Prop
  | .open tiers =>
    (∀ t ∈ s.catalog, (t.object.isSome → tiers.tierIsShared t.tier) ∧ s.tiers.SamePaths place tiers t ∧
      tiers.SweepsApart place t) ∧
    ∀ p ∈ s.parts, ∀ t ∈ p.tables, t ∉ s.catalog → ∀ ext ∈ [Ext.klog, .vlog], ∃ l ∈ [p.home place t ext, p.dest t ext],
      s.HeldAt t ext l ∧ ¬s.InDefaultDir place tiers l
  | _ => True

instance (s : State R B) : DecidablePred (s.Settled place) :=
  fun e => by cases e <;> (unfold Settled; infer_instance)

structure AtRest (s : State R B) : Prop where
  phase : s.phase = .closed
  job : s.job = none
  parts : s.parts = []
  distinct : ∀ t ∈ s.catalog, ∀ t' ∈ s.catalog, t.id = t'.id → t = t'
  intact : ∀ t ∈ s.catalog, s.Intact place t

def Step (s s' : State R B) : Prop :=
  ∃ e, s.Enabled place partition e ∧ s' = s.exec place partition aside e

def SettledStep (s s' : State R B) : Prop :=
  ∃ e, s.Enabled place partition e ∧ s.Settled place e ∧ s' = s.exec place partition aside e

end State

end OndaDb.Parts.Detach

import OndaDb.Lib.Map
import OndaDb.Lib.Run
import Mathlib.Data.List.Sort

-- The files of tables on the storage tiers, and the catalog that names them.
namespace OndaDb.Parts

inductive Backend
  | disk
  | store (id : Nat) (readOnly : Bool)
  deriving DecidableEq, Repr

def Backend.isReadOnly : Backend → Bool
  | .disk => false
  | .store _ read => read

structure TierDef where
  name : String
  root : String
  shared : Bool
  backend : Backend
  deriving DecidableEq, Repr

structure Tiers where
  dir : String
  defs : List TierDef
  deriving DecidableEq, Repr

def defaultTierName : String := "ssd"

namespace Tiers

-- The registry leaves a definition with the reserved name out.
def entry (ts : Tiers) (tier : Option String) : Option TierDef :=
  tier.bind fun name => ts.defs.find? fun t => t.name ≠ defaultTierName ∧ t.name = name

def rootFor (ts : Tiers) (tier : Option String) : String :=
  (ts.entry tier).elim ts.dir TierDef.root

def storageFor (ts : Tiers) (tier : Option String) : Backend :=
  (ts.entry tier).elim .disk TierDef.backend

def isKnown (ts : Tiers) (tier : Option String) : Bool :=
  tier.isNone || (ts.entry tier).isSome

def tierIsShared (ts : Tiers) (tier : Option String) : Bool :=
  tier.any fun name => ts.defs.any fun t => t.name = name && t.shared

def tierIsLocal (ts : Tiers) : Option String → Bool
  | none => true
  | some name => ((ts.defs.find? (·.name = name)).map TierDef.backend).all (· = .disk)

def orphanSweepLocations (ts : Tiers) : List (Option String) :=
  none :: (ts.defs.filter fun t => t.name ≠ defaultTierName ∧ !t.shared).map fun t => some t.name

instance (ts : Tiers) (location : Option String) : Decidable (location ∈ ts.orphanSweepLocations) :=
  inferInstance

end Tiers

inductive Ext
  | klog
  | vlog
  deriving DecidableEq, Repr

-- `<id>.klog` for a table of this database, `<nonce>-<id>.klog` for an object on a shared tier.
inductive FileName
  | table (id : Nat) (ext : Ext)
  | object (nonce id : Nat) (ext : Ext)
  deriving DecidableEq, Repr

-- Only the first form is a number and a suffix.
def FileName.parseSstFileId : FileName → Option Nat
  | .table id _ => some id
  | .object _ _ _ => none

def cfDirName (cf : String) : String :=
  "cf-" ++ cf

-- A file where the file system has it: two roots that are spelled differently may be one place.
structure Loc (R : Type) where
  root : R
  dir : String
  name : FileName
  deriving DecidableEq, Repr

instance [DecidableEq R] : LawfulBEq (Loc R) :=
  inferInstance

structure Object where
  cf : String
  nonce : Nat
  id : Nat
  deriving DecidableEq, Repr

structure Table (B : Type) where
  cf : String
  id : Nat
  tier : Option String
  object : Option Object
  klog : B
  vlog : Option B
  deriving DecidableEq, Repr

instance [DecidableEq B] : LawfulBEq (Table B) :=
  inferInstance

section

variable {R B : Type} (place : Backend → String → R)

def Tiers.rootAt (ts : Tiers) (tier : Option String) : R :=
  place (ts.storageFor tier) (ts.rootFor tier)

def Tiers.pathFor (ts : Tiers) (t : Table B) (ext : Ext) : Loc R :=
  match t.tier, t.object with
  | none,      _ => ⟨ts.rootAt place none, cfDirName t.cf, .table t.id ext⟩
  | some tier, some o => ⟨ts.rootAt place (some tier), cfDirName o.cf, .object o.nonce o.id ext⟩
  | some tier, none => ⟨ts.rootAt place (some tier), cfDirName t.cf, .table t.id ext⟩

def Table.content (t : Table B) : Ext → Option B
  | .klog => some t.klog
  | .vlog => t.vlog

-- The files of a table are whole where the tiers have them. A file that is not finished holds `none`.
def Intact [DecidableEq R] (ts : Tiers) (files : Map (Loc R) (Option B)) (t : Table B) : Prop :=
  ∀ ext b, t.content ext = some b → files.lookup (ts.pathFor place t ext) = some (some b)

def Tiers.SweepsApart (ts : Tiers) (t : Table B) : Prop :=
  t.object.isNone → ∀ location ∈ ts.orphanSweepLocations, ¬(ts.storageFor location).isReadOnly →
    ts.rootAt place location = ts.rootAt place t.tier → location = t.tier

def Tiers.SamePaths (old new : Tiers) (t : Table B) : Prop :=
  ∀ ext ∈ [Ext.klog, .vlog], new.pathFor place t ext = old.pathFor place t ext

instance [DecidableEq R] (ts : Tiers) (t : Table B) : Decidable (ts.SweepsApart place t) := by
  unfold Tiers.SweepsApart
  infer_instance

instance [DecidableEq R] (old new : Tiers) (t : Table B) : Decidable (old.SamePaths place new t) := by
  unfold Tiers.SamePaths
  infer_instance

end

inductive Phase
  | closed
  | opening
  | running
  deriving DecidableEq

def sstIsMisplaced (manifestTier : Option (Option String)) (location : Option String) : Bool :=
  match manifestTier with
  | some tier => tier ≠ location
  | none => location.isNone

-- `manifest_table_locations` of one family, asked for one id: a later entry replaces an earlier one.
def manifestTier (catalog : List (Table B)) (cf : String) (id : Nat) : Option (Option String) :=
  ((catalog.filter (·.cf = cf)).reverse.find? (·.id = id)).map Table.tier

end OndaDb.Parts

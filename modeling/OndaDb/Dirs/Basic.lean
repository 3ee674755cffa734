import OndaDb.Lib.Map
import OndaDb.Lib.Path
import OndaDb.Lib.Run
import Mathlib.Data.List.Dedup

-- The directories of the column families: where their files lie and what removes them.
namespace OndaDb.Dirs

inductive File
  | wal (gen : Nat)
  | klog (id : Nat)
  | vlog (id : Nat)
  deriving DecidableEq

def File.sstId? : File → Option Nat
  | .wal _ => none
  | .klog id => some id
  | .vlog id => some id

def File.walGen? : File → Option Nat
  | .wal gen => some gen
  | _ => none

structure Table where
  id : Nat
  hasVlog : Bool
  deriving DecidableEq

def Table.files (t : Table) : List File :=
  .klog t.id :: if t.hasVlog then [.vlog t.id] else []

structure Family where
  walGen : Nat
  pending : List Nat
  imm : List (List Nat)
  tables : List Table
  deriving DecidableEq

namespace Family

def wals (f : Family) : List Nat :=
  f.imm.flatten ++ f.pending

def files (f : Family) : List File :=
  f.wals.map .wal ++ f.tables.flatMap Table.files

def create : Family :=
  ⟨0, [0], [], []⟩

def rotate (f : Family) : Family :=
  { f with walGen := f.walGen + 1, pending := [f.walGen + 1], imm := f.imm ++ [f.pending] }

end Family

def maxCfNameLen : Nat := 128

def cfDirName (name : String) : String :=
  "cf-" ++ name

-- The names that the creating calls check for.
def ValidName (name : String) : Prop :=
  name ≠ "" ∧ name.utf8ByteSize ≤ maxCfNameLen

instance (name : String) : Decidable (ValidName name) := by
  unfold ValidName
  infer_instance

def cfDir (root : DirPath) (name : String) : DirPath :=
  root.resolve (DirPath.components (cfDirName name))

structure State where
  cfs : Map String Family
  nextFileId : Nat
  disk : List (DirPath × File)
  deriving DecidableEq

namespace State

variable (root : DirPath) (s : State)

def init : State :=
  ⟨∅, 1, []⟩

def family (name : String) : Option Family :=
  s.cfs.lookup name

def filesOf (name : String) : List (DirPath × File) :=
  ((s.family name).map fun f => f.files.map (cfDir root name, ·)).getD []

def write (name : String) (files : List File) : State :=
  { s with disk := files.map (cfDir root name, ·) ++ s.disk }

def unlink (name : String) (files : List File) : State :=
  { s with disk := s.disk.filter fun p => p.1 ≠ cfDir root name ∨ p.2 ∉ files }

def removeDirAll (dir : DirPath) : State :=
  { s with disk := s.disk.filter fun p => ¬dir <+: p.1 }

def set (name : String) (f : Family) : State :=
  { s with cfs := s.cfs.insert name f }

def register (name : String) : State :=
  (s.write root name [.wal 0]).set name .create

def createColumnFamilies (names : List String) : State :=
  if (∀ name ∈ names, ValidName name ∧ s.family name = none) ∧ names.Nodup
  then names.foldl (register root) s
  else s

def rotate (name : String) : State :=
  match s.family name with
  | none => s
  | some f => (s.write root name [.wal (f.walGen + 1)]).set name f.rotate

-- The oldest sealed memtable written out as a table, if it holds anything; then the catalog's edit
-- unless the process stops before it, and last the log generations that the table makes superfluous.
def flush (name : String) (hasVlog : Option Bool) (published : Bool) : State :=
  match s.family name with
  | none => s
  | some f =>
    match f.imm with
    | [] => s
    | sealed :: rest =>
      let tables := (hasVlog.map (Table.mk s.nextFileId)).toList
      let written := { s.write root name (tables.flatMap Table.files) with nextFileId := s.nextFileId + 1 }
      if published
      then (written.set name { f with imm := rest, tables := tables ++ f.tables }).unlink root name (sealed.map .wal)
      else written

def dropColumnFamily (name : String) : State :=
  match s.family name with
  | none => s
  | some _ => { s with cfs := s.cfs.erase name }.removeDirAll (cfDir root name)

def clearColumnFamily (name : String) : State :=
  match s.family name with
  | none => s
  | some _ => ({ s with cfs := s.cfs.erase name }.removeDirAll (cfDir root name)).register root name

def list (dir : DirPath) : List File :=
  (s.disk.filter (·.1 = dir)).map (·.2)

-- `sweep_cf_location`: the tables of a directory that its family's catalog does not name.
def sweep (name : String) : State :=
  match s.family name with
  | none => s
  | some f =>
    s.unlink root name ((s.list (cfDir root name)).filter fun x => ∃ id ∈ x.sstId?, id ∉ f.tables.map (·.id))

def existingWalGens (dir : DirPath) : List Nat :=
  ((s.list dir).filterMap File.walGen?).dedup.mergeSort

-- `ColumnFamily::load`: every generation found is replayed, and one more opened behind them.
def load (name : String) : State :=
  match s.family name with
  | none => s
  | some f =>
    let gens := s.existingWalGens (cfDir root name)
    let next := (gens.getLast?.map (· + 1)).getD 0
    (s.write root name [.wal next]).set name { f with walGen := next, pending := gens ++ [next], imm := [] }

def reopen : State :=
  s.cfs.keys.foldl (sweep root) (s.cfs.keys.foldl (load root) s)

end State

inductive Event
  | create (names : List String)
  | rotate (name : String)
  | flush (name : String) (hasVlog : Option Bool) (published : Bool)
  | drop (name : String)
  | clear (name : String)
  | reopen
  deriving DecidableEq

namespace State

variable (root : DirPath)

def exec (s : State) : Event → State
  | .create names => s.createColumnFamilies root names
  | .rotate name => s.rotate root name
  | .flush name hasVlog stored => s.flush root name hasVlog stored
  | .drop name => s.dropColumnFamily root name
  | .clear name => s.clearColumnFamily root name
  | .reopen => s.reopen root

end State

def Event.Plain : Event → Prop
  | .create names => ∀ name ∈ names, '/' ∉ name.toList
  | _ => True

instance : DecidablePred Event.Plain :=
  fun e => by cases e <;> (unfold Event.Plain; infer_instance)

def PlainStep (root : DirPath) (s s' : State) : Prop :=
  ∃ e : Event, e.Plain ∧ s' = s.exec root e

end OndaDb.Dirs

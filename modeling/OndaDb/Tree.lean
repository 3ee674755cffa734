import OndaDb.Table

namespace OndaDb

variable {K V : Type}

structure Memtable (K V : Type) where
  entries : List (Version K V)
  ranges : RangeTombstoneSet K

-- The state of a column family: the memtables, newest first (those of the shared store, the active
-- one and the immutable ones), and the levels. Level 0 holds its tables newest first.
structure Tree (K V : Type) where
  mems : List (Memtable K V)
  levels : List (List (Table K V))

namespace Memtable

def empty : Memtable K V where
  entries := []
  ranges := .empty

def data (m : Memtable K V) : Data K V where
  versions := m.entries
  fragments := m.ranges.spans.map fun s => ⟨s.start, s.stop, [s.seq]⟩

section

variable [LinearOrder K]

def put (m : Memtable K V) (v : Version K V) : Memtable K V :=
  { m with entries := m.entries.orderedInsert Version.Before v }

def putBatch (m : Memtable K V) (recs : List (Version K V)) : Memtable K V :=
  recs.foldl put m

def addRange (m : Memtable K V) (s : Span K) : Memtable K V :=
  { m with ranges := m.ranges.add s.start s.stop s.seq }

-- A committed batch goes in with its points first.
def applyBatch (m : Memtable K V) (recs : List (Version K V)) (ranges : List (Span K)) :
    Memtable K V :=
  ranges.foldl addRange (m.putBatch recs)

end

end Memtable

namespace Tree

def tables (t : Tree K V) : List (Table K V) :=
  t.levels.flatten

def memData (t : Tree K V) : Data K V where
  versions := t.mems.flatMap (·.data.versions)
  fragments := t.mems.flatMap (·.data.fragments)

def data (t : Tree K V) : Data K V :=
  t.memData ++ tablesData t.tables

def applyBatch [LinearOrder K] (t : Tree K V) (recs : List (Version K V)) (ranges : List (Span K)) :
    Tree K V :=
  { t with mems := (t.mems.headD .empty).applyBatch recs ranges :: t.mems.tail }

def removeTables (t : Tree K V) (ids : List Nat) : Tree K V :=
  { t with levels := t.levels.map fun level => level.filter fun th => th.id ∉ ids }

end Tree

end OndaDb

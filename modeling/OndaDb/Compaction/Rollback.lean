import OndaDb.Compaction.Job

-- What a failed catalog write does to the levels a job was installed in.
namespace OndaDb

variable {K V : Type} [LinearOrder K]

-- Appends a table that is not there. Every level but the first is sorted afterwards.
def putBack (i : Nat) (tables : List (Table K V)) (t : Table K V) : List (Table K V) :=
  if tables.any (·.id = t.id) then tables
  else if 0 < i then (tables ++ [t]).insertionSort fun a b => a.minKey ≤ b.minKey
  else tables ++ [t]

namespace Levels

def reinsert (levels : Levels K V) (i : Nat) (t : Table K V) : Levels K V :=
  let levels := levels ++ List.replicate (i + 1 - levels.length) []
  levels.modify i (putBack i · t)

def rollback (levels : Levels K V) (levelOf : Table K V → Nat) (inputs installed : List (Table K V)) :
    Levels K V :=
  inputs.foldl (fun levels t => levels.reinsert (levelOf t) t)
    (levels.map fun tables => tables.filter fun t => t.id ∉ installed.map Table.id)

end Levels

end OndaDb

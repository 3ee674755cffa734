import OndaDb.Read.Reference

namespace OndaDb

open List

-- An SSTable: the entries in internal order, the range fragments, and the point bounds its
-- metadata records.
structure Table (K V : Type) where
  id : Nat
  entries : List (Version K V)
  fragments : List (Fragment K)
  minKey : K
  maxKey : K
  partition : Option String
  -- The storage tier that holds the files, none for the default one.
  tier : Option String
  -- A read-only table another database published.
  foreign : Bool
  deriving DecidableEq, Repr

namespace Table

variable {K V : Type}

def maxSeq (t : Table K V) : Nat :=
  t.entries.foldl (fun m v => max m v.seq) 0

def hasRanges (t : Table K V) : Bool :=
  0 < (summarize t.fragments).count

variable [LinearOrder K]

def spanMin (t : Table K V) : K :=
  match (summarize t.fragments).minKey with
  | some k => if k < t.minKey then k else t.minKey
  | none => t.minKey

def spanMax (t : Table K V) : K :=
  match (summarize t.fragments).maxKey with
  | some k => if t.maxKey < k then k else t.maxKey
  | none => t.maxKey

@[mk_iff]
structure Valid (t : Table K V) : Prop where
  sorted : t.entries.Pairwise Version.Before
  fragmented : Fragmented t.fragments
  minKey : ∀ v ∈ t.entries.head?, t.minKey = v.key
  maxKey : ∀ v ∈ t.entries.getLast?, t.maxKey = v.key
  ordered : t.minKey ≤ t.maxKey

instance {t : Table K V} : Decidable t.Valid :=
  decidable_of_iff' _ t.valid_iff

namespace Valid

variable {t : Table K V}

theorem keys_sorted (h : t.Valid) : t.entries.Pairwise fun v w => v.key ≤ w.key :=
  h.sorted.imp fun h => h.elim (·.le) (·.1.le)

theorem minKey_le (h : t.Valid) (hv : v ∈ t.entries) : t.minKey ≤ v.key := by
  have hs := h.keys_sorted
  have hm := h.minKey
  cases he : t.entries
  case nil => simp [he] at hv
  case cons w ws =>
    rw [he] at hv hs hm
    rw [hm w rfl]
    rcases mem_cons.mp hv with rfl | hv
    · exact le_rfl
    · exact rel_of_pairwise_cons hs hv

theorem le_maxKey (h : t.Valid) (hv : v ∈ t.entries) : v.key ≤ t.maxKey := by
  have hs := h.keys_sorted
  have hm := h.maxKey
  have hne := ne_nil_of_mem hv
  rw [hm _ (getLast?_eq_some_getLast hne)]
  rw [← dropLast_append_getLast hne] at hv hs
  rcases mem_append.mp hv with hv | hv
  · exact (pairwise_append.mp hs).2.2 v hv _ (by simp)
  · rw [mem_singleton.mp hv]

end Valid

end Table

def tablesData {K V : Type} (ts : List (Table K V)) : Data K V where
  versions := ts.flatMap Table.entries
  fragments := ts.flatMap Table.fragments

end OndaDb

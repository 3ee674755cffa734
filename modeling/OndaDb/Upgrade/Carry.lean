import Mathlib.Tactic
import OndaDb.Encoding

-- The format upgrade from inside: what of the old directory is in the new one.
namespace OndaDb.Upgrade

open List

-- Not every name of a file is text.
inductive FileName
  | utf8 (name : String)
  | other (bytes : Bytes)
  deriving DecidableEq

-- A link or a special file is neither a regular file nor a directory.
inductive Node
  | file (data : Bytes)
  | dir (entries : List (FileName × Node))
  | special

abbrev Entries := List (FileName × Node)

def Node.find : Node → List FileName → Option Node
  | x, [] => some x
  | .dir entries, n :: p => entries.lookup n >>= fun x => x.find p
  | _, _ :: _ => none

def marker : String := "UPGRADE-IN-PROGRESS"

def startsWith (name start : String) : Bool :=
  start.toList.isPrefixOf name.toList

def isEngineEntry (name : String) : Bool :=
  name = "LOCK" || name = marker || startsWith name "MANIFEST" || startsWith name "unified-wal-" || startsWith name "cf-"

mutual

def copy : Node → Option Node
  | .dir entries => some (.dir (copyAll entries))
  | .file data => some (.file data)
  | .special => none

def copyAll : Entries → Entries
  | [] => []
  | (n, x) :: es => match copy x with
    | some y => (n, y) :: copyAll es
    | none => copyAll es

end

-- Only names that are text are looked at.
def FileName.foreign : FileName → Bool
  | utf8 name => !isEngineEntry name
  | other _ => false

def carryForeignEntries (src : Entries) : Entries :=
  src.filterMap fun e => (if e.1.foreign then copy e.2 else none).map (e.1, ·)

-- The rebuild is swapped in without its marker, and the old directory goes.
def upgraded (rebuilt src : Entries) : Entries :=
  (rebuilt ++ carryForeignEntries src).filter (·.1 ≠ .utf8 marker)

-- The catalog, the catalogued tables and the replayed WALs are `owned` by the engine.
def Kept (owned : List FileName → Prop) (src up : Entries) : Prop :=
  ∀ p data, ¬owned p → (Node.dir src).find p = some (.file data) → (Node.dir up).find p = some (.file data)

def Carried : List FileName → Bool
  | n :: _ => n.foreign
  | [] => false

def Carries (owned : List FileName → Prop) (src : Entries) : Prop :=
  ∀ p data, ¬owned p → (Node.dir src).find p = some (.file data) → Carried p

variable {src rebuilt : Entries}

theorem lookup_filterMap {f : FileName → Node → Option Node} (h : src.lookup n = some x) (hf : f n x = some y) :
    (src.filterMap fun e => (f e.1 e.2).map (e.1, ·)).lookup n = some y := by
  induction src
  case nil => cases h
  case cons e es ih =>
    rw [lookup_cons] at h
    rw [filterMap_cons]
    by_cases hn : n = e.1
    case pos =>
      subst hn
      obtain rfl : e.2 = x := by simpa using h
      rw [hf]
      simp
    rw [beq_false_of_ne hn] at h
    cases hc : f e.1 e.2
    case none => exact ih h
    case some z => simpa [lookup_cons, beq_false_of_ne hn] using ih h

theorem copyAll_eq (es : Entries) : copyAll es = es.filterMap fun e => (copy e.2).map (e.1, ·) := by
  induction es
  case nil => rw [copyAll]; rfl
  case cons e es ih =>
    rw [copyAll, filterMap_cons, ih]
    cases copy e.2 <;> rfl

theorem find_copy (h : x.find p = some (.file data)) : ∃ y, copy x = some y ∧ y.find p = some (.file data) := by
  induction p generalizing x
  case nil =>
    cases h
    exact ⟨_, rfl, rfl⟩
  case cons n p ih =>
    cases x
    case file => cases h
    case special => cases h
    case dir es =>
      obtain ⟨x, hx, hf⟩ := Option.bind_eq_some_iff.mp h
      obtain ⟨y, hc, hy⟩ := ih hf
      refine ⟨_, rfl, Option.bind_eq_some_iff.mpr ⟨y, ?_, hy⟩⟩
      rw [copyAll_eq]
      exact lookup_filterMap (f := fun _ => copy) hx hc

theorem lookup_filter (h : n ≠ m) (es : Entries) : (es.filter (·.1 ≠ m)).lookup n = es.lookup n := by
  induction es
  case nil => rfl
  case cons e es ih =>
    by_cases he : e.1 = m
    case pos =>
      rw [filter_cons_of_neg (by simpa using he), ih, lookup_cons, beq_false_of_ne (he ▸ h)]
    case neg => rw [filter_cons_of_pos (by simpa using he), lookup_cons, lookup_cons, ih]

theorem lookup_upgraded (hr : ∀ e ∈ rebuilt, ¬e.1.foreign) (hf : n.foreign) :
    (upgraded rebuilt src).lookup n = (carryForeignEntries src).lookup n := by
  have hm : n ≠ .utf8 marker := by
    rintro rfl
    exact absurd hf (by decide)
  have hnone : rebuilt.lookup n = none := lookup_eq_none_iff.mpr fun e he =>
    bne_iff_ne.mpr fun hn => hr e he (hn ▸ hf)
  rw [upgraded, lookup_filter hm, lookup_append, hnone, Option.none_or]

theorem lookup_carried (hf : ¬n.foreign) : (carryForeignEntries src).lookup n = none := by
  refine lookup_eq_none_iff.mpr fun e he => bne_iff_ne.mpr ?_
  rintro rfl
  obtain ⟨e', -, he'⟩ := mem_filterMap.mp he
  obtain ⟨y, hy, rfl⟩ := Option.map_eq_some_iff.mp he'
  rw [if_neg hf] at hy
  cases hy

theorem find_of_carried (hr : ∀ e ∈ rebuilt, ¬e.1.foreign) (hp : Carried p)
    (h : (Node.dir src).find p = some (.file data)) : (Node.dir (upgraded rebuilt src)).find p = some (.file data) := by
  cases p
  case nil => cases hp
  case cons n p =>
    have hf : n.foreign := hp
    obtain ⟨x, hx, hfind⟩ := Option.bind_eq_some_iff.mp h
    obtain ⟨y, hc, hy⟩ := find_copy hfind
    refine Option.bind_eq_some_iff.mpr ⟨y, ?_, hy⟩
    rw [lookup_upgraded hr hf]
    exact lookup_filterMap (f := fun n x => if n.foreign then copy x else none) hx (by rwa [if_pos hf])

theorem carried_of_find (h : (Node.dir (upgraded rebuilt src)).find p = some (.file data))
    (hn : (Node.dir rebuilt).find p ≠ some (.file data)) : Carried p := by
  cases p
  case nil => cases h
  case cons n p =>
    by_contra hf
    obtain ⟨x, hx, hfind⟩ := Option.bind_eq_some_iff.mp h
    have hm : n ≠ .utf8 marker := by
      rintro rfl
      obtain ⟨l₁, l₂, he, -⟩ := lookup_eq_some_iff.mp hx
      have hmem : (FileName.utf8 marker, x) ∈ upgraded rebuilt src := he ▸ mem_append_right _ (mem_cons_self ..)
      exact of_decide_eq_true (mem_filter.mp hmem).2 rfl
    rw [upgraded, lookup_filter hm, lookup_append, lookup_carried hf, Option.or_none] at hx
    exact hn (Option.bind_eq_some_iff.mpr ⟨x, hx, hfind⟩)

/-- A rebuild holds what the engine owns. The other files of the old directory are all kept if each of them is below a
top-level name that is text and not one of the engine's, and, where the rebuild has none of them itself, only then. -/
theorem upgrade_keeps_iff (owned : List FileName → Prop) (src rebuilt : Entries) (hr : ∀ e ∈ rebuilt, ¬e.1.foreign) :
    (Carries owned src → Kept owned src (upgraded rebuilt src)) ∧
    ((∀ p data, ¬owned p → (Node.dir src).find p = some (.file data) →
        (Node.dir rebuilt).find p ≠ some (.file data)) →
      Kept owned src (upgraded rebuilt src) → Carries owned src) :=
  ⟨fun hc p data ho h => find_of_carried hr (hc p data ho h) h,
    fun hn hk p data ho h => carried_of_find (hk p data ho h) (hn p data ho h)⟩

def detached : Entries :=
  [(.utf8 "MANIFEST", .file [1]),
    (.utf8 "cf-x", .dir [(.utf8 "2.klog", .file [2]),
      (.utf8 "detached", .dir [(.utf8 "p", .dir [(.utf8 "3.klog", .file [3])])])]),
    (.utf8 "notes", .dir [(.utf8 "today", .file [4])]), (.utf8 "MANIFEST.old", .file [5])]

def rebuild : Entries :=
  [(.utf8 marker, .file []), (.utf8 "LOCK", .file []), (.utf8 "cf-x", .dir [(.utf8 "2.klog", .file [6])]),
    (.utf8 "MANIFEST", .file [7])]

theorem upgrade_keeps_notes :
    (Node.dir (upgraded rebuild detached)).find [.utf8 "notes", .utf8 "today"] = some (.file [4]) :=
  (upgrade_keeps_iff (· ≠ [.utf8 "notes", .utf8 "today"]) detached rebuild (by decide)).1
    (fun p data ho _ => by rw [not_not.mp ho]; decide) _ _ (by decide) rfl

/-- The files of a detached part stay behind, and so does a file at the top whose name starts as a catalog's does. -/
theorem detached_part_left :
    (Node.dir detached).find [.utf8 "cf-x", .utf8 "detached", .utf8 "p", .utf8 "3.klog"] = some (.file [3]) ∧
    (Node.dir (upgraded rebuild detached)).find [.utf8 "cf-x", .utf8 "detached", .utf8 "p", .utf8 "3.klog"] = none ∧
    (Node.dir detached).find [.utf8 "MANIFEST.old"] = some (.file [5]) ∧
    (Node.dir (upgraded rebuild detached)).find [.utf8 "MANIFEST.old"] = none :=
  ⟨rfl, rfl, rfl, rfl⟩

end OndaDb.Upgrade

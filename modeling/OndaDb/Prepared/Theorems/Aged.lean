import OndaDb.Prepared.Theorems.Files
import OndaDb.Prepared.Theorems.Gens

-- The generations of the log: the current one is the newest, and what is flushed or being unlinked
-- is older.
namespace OndaDb.Prepared

open List

variable {I K V : Type}

theorem Registry.foldl_forget [DecidableEq I] (ids : List I) (reg : Registry I K V) :
    (ids.foldl Registry.forget reg).byId = reg.byId ∧
      ∀ id, id ∈ (ids.foldl Registry.forget reg).retiring ↔ id ∈ reg.retiring ∧ id ∉ ids := by
  induction ids generalizing reg with
  | nil => simp
  | cons i ids ih =>
    rw [foldl_cons]
    refine ⟨(ih _).1, fun id => ?_⟩
    rw [(ih _).2, Registry.forget, mem_filter, mem_cons]
    simp only [decide_eq_true_eq, not_or]
    exact and_assoc

theorem Registry.byKey_foldl_forget [DecidableEq I] (ids : List I) (reg : Registry I K V) :
    (ids.foldl Registry.forget reg).byKey = reg.byKey := by
  induction ids generalizing reg with
  | nil => rfl
  | cons i ids ih => exact ih _

theorem eq_singleton_of_getElem? (hl : l.length ≤ 1) (h : l[i]? = some a) :
    i = 0 ∧ l = [a] := by
  obtain ⟨hi, rfl⟩ := List.getElem?_eq_some_iff.mp h
  obtain rfl : i = 0 := by omega
  obtain ⟨b, rfl⟩ := length_eq_one_iff.mp (Nat.le_antisymm hl hi)
  exact ⟨rfl, rfl⟩

namespace Store

variable {s : Store I K V} {f : Frame I K V} {g : Nat}

def Unlinks (s : Store I K V) (g : Nat) : Prop :=
  ∃ u ∈ s.unlinking, g ∈ u.1

structure Aged (s : Store I K V) : Prop where
  nodup : (s.files.map File.gen).Nodup
  current : s.gen ∈ s.files.map File.gen
  files : ∀ g ∈ s.files.map File.gen, g ≤ s.gen
  active : ∀ g ∈ s.active.gens, g ≤ s.gen
  imms : ∀ m ∈ s.imms, ∀ g ∈ m.gens, g < s.gen
  flushed : ∀ g ∈ s.gens.flushed, g < s.gen
  unlinks : ∀ g, s.Unlinks g → g < s.gen

namespace Aged

theorem start : Aged (start maxBytes : Store I K V) where
  nodup := by simp [Store.start]
  current := by simp [Store.start]
  files := by simp [Store.start]
  active := by simp [Store.start]
  imms := by simp [Store.start]
  flushed := by simp [Store.start, WalGenState.new]
  unlinks := by simp [Store.start, Unlinks]

theorem append (h : s.Aged) : (s.append f).Aged where
  nodup := by rw [gens_append]; exact h.nodup
  current := by rw [gens_append]; exact h.current
  files := by rw [gens_append]; exact h.files
  __ := h

theorem sync (h : s.Aged) : (s.sync g).Aged where
  nodup := by rw [gens_sync]; exact h.nodup
  current := by rw [gens_sync]; exact h.current
  files := by rw [gens_sync]; exact h.files
  __ := h

theorem rotate (h : s.Aged) : s.rotate.Aged where
  nodup := by
    rw [Store.rotate, map_append, nodup_append']
    refine ⟨h.nodup, by simp, ?_⟩
    intro g hg hg'
    have := h.files g hg
    simp only [map_cons, map_nil, mem_singleton] at hg'
    omega
  current := by simp [Store.rotate]
  files := by
    intro g hg
    rw [Store.rotate, map_append, mem_append] at hg
    rcases hg with hg | hg
    · exact (h.files g hg).trans (Nat.le_succ _)
    · simp only [map_cons, map_nil, mem_singleton] at hg
      exact hg.le
  active := by simp [Store.rotate]
  imms := by
    intro m hm g hg
    rcases mem_append.mp hm with hm | hm
    · exact (h.imms m hm g hg).trans (Nat.lt_succ_self _)
    · rw [mem_singleton] at hm
      subst hm
      exact Nat.lt_succ_of_le (h.active g hg)
  flushed := fun g hg => (h.flushed g hg).trans (Nat.lt_succ_self _)
  unlinks := fun g hg => (h.unlinks g hg).trans (Nat.lt_succ_self _)

theorem flush (h : s.Aged) : s.flush.Aged := by
  rw [Store.flush]
  split
  case h_1 => exact h
  case h_2 imm imms heq =>
    refine ⟨h.nodup, h.current, h.files, h.active, fun m hm => ?_, fun g hg => ?_, h.unlinks⟩
    · exact h.imms m (heq ▸ mem_cons_of_mem _ hm)
    · rcases (WalGenState.mem_foldl_markFlushed _).mp hg with hg | hg
      · exact h.imms imm (heq ▸ mem_cons_self) g hg
      · exact h.flushed g hg

theorem sweep (h : s.Aged) : s.sweep.Aged := by
  have hs := WalGenState.sweep_swept s.gens
  rw [Store.sweep]
  refine ⟨h.nodup, h.current, h.files, h.active, h.imms, fun g hg => ?_, fun g hg => ?_⟩
  · exact h.flushed g ((hs.flushed g).mp hg).1
  · obtain ⟨u, hu, hg⟩ := hg
    rcases mem_append.mp hu with hu | hu
    · exact h.unlinks g ⟨u, hu, hg⟩
    · rw [mem_singleton] at hu
      subst hu
      exact h.flushed g (hs.sub hg)

variable [DecidableEq I]

theorem unlink (h : s.Aged) : (s.unlink i).Aged := by
  rw [Store.unlink]
  split
  case h_1 g gs ids heq =>
    have hmem := mem_of_getElem? heq
    refine ⟨?_, ?_, ?_, h.active, h.imms, h.flushed, ?_⟩
    · exact (List.Sublist.map _ filter_sublist).nodup h.nodup
    · obtain ⟨file, hf, hg⟩ := mem_map.mp h.current
      refine mem_map.mpr ⟨file, mem_filter.mpr ⟨hf, ?_⟩, hg⟩
      have := h.unlinks g ⟨_, hmem, mem_cons_self⟩
      simp only [ne_eq, decide_eq_true_eq]
      omega
    · exact fun g' hg => h.files g' ((List.Sublist.map _ filter_sublist).subset hg)
    · rintro g' ⟨u, hu, hg⟩
      rcases mem_or_eq_of_mem_set hu with hu | rfl
      · exact h.unlinks g' ⟨u, hu, hg⟩
      · exact h.unlinks g' ⟨_, hmem, mem_cons_of_mem _ hg⟩
  case h_2 ids heq =>
    refine ⟨h.nodup, h.current, h.files, h.active, h.imms, h.flushed, ?_⟩
    rintro g' ⟨u, hu, hg⟩
    exact h.unlinks g' ⟨u, mem_of_mem_eraseIdx hu, hg⟩
  case h_3 => exact h

end Aged

end Store

end OndaDb.Prepared

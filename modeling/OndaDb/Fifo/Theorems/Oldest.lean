import OndaDb.Fifo.Basic
import Mathlib.Data.List.Induction

namespace OndaDb.Fifo

open List

variable {K V : Type}

section Select

variable {l0 : List (Table K V)} {expired : List Nat}

def Descending (l0 : List (Table K V)) : Prop :=
  l0.Pairwise fun t u => u.id < t.id

theorem bytes_append_singleton (t : Table K V) : bytes (l0 ++ [t]) = bytes l0 + t.bytes := by
  simp [bytes]

theorem Descending.id_inj (h : Descending l0) (ht : t ∈ l0) (hu : u ∈ l0) (heq : t.id = u.id) :
    t = u := by
  have hnodup : (l0.map (·.id)).Nodup := pairwise_map.mpr (h.imp fun hlt => (Nat.ne_of_lt hlt).symm)
  exact inj_on_of_nodup_map hnodup ht hu heq

theorem Descending.byAge_eq (h : Descending l0) : byAge l0 = l0.reverse := by
  have hrev : l0.reverse.Pairwise fun t u => t.id < u.id := pairwise_reverse.mpr h
  have htrans : IsTrans (Table K V) fun t u => t.id ≤ u.id := ⟨fun _ _ _ => Nat.le_trans⟩
  have htotal : Std.Total fun t u : Table K V => t.id ≤ u.id := ⟨fun t u => Nat.le_total t.id u.id⟩
  have hsorted : (byAge l0).Pairwise fun t u => t.id ≤ u.id := pairwise_insertionSort ..
  have hperm : (byAge l0).Perm l0.reverse := (perm_insertionSort ..).trans (reverse_perm l0).symm
  refine List.Perm.eq_of_pairwise (fun t u ht hu htu hut => ?_) hsorted (hrev.imp Nat.le_of_lt) hperm
  exact h.id_inj (mem_reverse.mp (hperm.subset ht)) (mem_reverse.mp hu) (Nat.le_antisymm htu hut)

theorem evictWhile_reverse (maxBytes : Nat) (l0 : List (Table K V)) :
    ∃ n ≤ l0.length, evictWhile maxBytes (bytes l0) l0.reverse = (l0.drop n).reverse ∧
      bytes (l0.take n) ≤ maxBytes ∧ ∀ m, n < m → m ≤ l0.length → maxBytes < bytes (l0.take m) := by
  induction l0 using reverseRecOn
  case nil => exact ⟨0, le_rfl, rfl, Nat.zero_le _, fun m h h' => absurd h (by simpa using h')⟩
  case append_singleton l0 t ih =>
    rw [reverse_append, reverse_singleton, singleton_append, evictWhile]
    split
    case isTrue hle =>
      refine ⟨(l0 ++ [t]).length, le_rfl, by simp, by rwa [take_length], fun m h h' => ?_⟩
      omega
    case isFalse hlt =>
      obtain ⟨n, hn, heq, hfit, hmax⟩ := ih
      refine ⟨n, by simp; omega, ?_, ?_, fun m hm hm' => ?_⟩
      · rw [bytes_append_singleton, Nat.add_sub_cancel, heq, drop_append_of_le_length hn, reverse_append]
        rfl
      · rwa [take_append_of_le_length hn]
      · by_cases hml : m ≤ l0.length
        case pos =>
          rw [take_append_of_le_length hml]
          exact hmax m hm hml
        have hall : m = (l0 ++ [t]).length := by
          simp only [length_append, length_singleton] at hm' ⊢
          omega
        rw [hall, take_length]
        omega

theorem Descending.sizeVictims_eq (h : Descending l0) (hmax : 0 < maxBytes) :
    ∃ n ≤ l0.length, sizeVictims l0 maxBytes = (l0.drop n).reverse ∧ bytes (l0.take n) ≤ maxBytes ∧
      ∀ m, n < m → m ≤ l0.length → maxBytes < bytes (l0.take m) := by
  rw [sizeVictims, if_pos hmax, h.byAge_eq]
  exact evictWhile_reverse maxBytes l0

def Oldest (l0 : List (Table K V)) (ids : List Nat) : Prop :=
  l0.Pairwise fun t u => t.id ∈ ids → u.id ∈ ids

theorem Descending.sizeVictims_subset (h : Descending l0) : sizeVictims l0 maxBytes ⊆ l0 := by
  intro u hu
  by_cases hmax : 0 < maxBytes
  case pos =>
    obtain ⟨n, -, heq, -⟩ := h.sizeVictims_eq hmax
    rw [heq, mem_reverse] at hu
    exact mem_of_mem_drop hu
  rw [sizeVictims, if_neg hmax] at hu
  cases hu

theorem Descending.selected_subset (h : Descending l0) :
    selectFifoVictims l0 maxBytes expired ⊆ l0 := by
  intro u hu
  rw [selectFifoVictims, h.byAge_eq, mem_append, mem_filter, mem_filter, mem_reverse] at hu
  rcases hu with hu | hu
  · exact hu.1
  · exact h.sizeVictims_subset hu.1

theorem Descending.mem_selected (h : Descending l0) (ht : t ∈ l0) :
    t.id ∈ (selectFifoVictims l0 maxBytes expired).map (·.id) ↔ t.id ∈ expired ∨ t ∈ sizeVictims l0 maxBytes := by
  simp only [selectFifoVictims, h.byAge_eq, map_append, mem_append, mem_map, mem_filter,
    mem_reverse, decide_eq_true_eq]
  constructor
  · rintro (⟨u, ⟨-, hexp⟩, heq⟩ | ⟨u, ⟨hu, -⟩, heq⟩)
    · exact .inl (heq ▸ hexp)
    · exact .inr (h.id_inj (h.sizeVictims_subset hu) ht heq ▸ hu)
  · intro hsel
    by_cases hexp : t.id ∈ expired
    case pos => exact .inl ⟨t, ⟨ht, hexp⟩, rfl⟩
    case neg => exact .inr ⟨t, ⟨hsel.resolve_left hexp, hexp⟩, rfl⟩

theorem Descending.sizeVictims_closed (h : Descending l0) (maxBytes : Nat) :
    l0.Pairwise fun t u => t ∈ sizeVictims l0 maxBytes → u ∈ sizeVictims l0 maxBytes := by
  by_cases hmax : 0 < maxBytes
  case pos =>
    obtain ⟨n, -, heq, -⟩ := h.sizeVictims_eq hmax
    have hd := h
    rw [Descending, ← take_append_drop n l0, pairwise_append] at hd
    have hnot (t : Table K V) (ht : t ∈ l0.take n) : t ∉ l0.drop n :=
      fun ht' => absurd (hd.2.2 t ht t ht') (Nat.lt_irrefl _)
    simp only [heq, mem_reverse]
    have happend : (l0.take n ++ l0.drop n).Pairwise fun t u => t ∈ l0.drop n → u ∈ l0.drop n := by
      refine pairwise_append.mpr ⟨?_, ?_, fun t ht u _ ht' => absurd ht' (hnot t ht)⟩
      · exact pairwise_of_forall_mem_list fun t ht u _ ht' => absurd ht' (hnot t ht)
      · exact pairwise_of_forall_mem_list fun t _ u hu _ => hu
    rwa [take_append_drop] at happend
  have hnil : sizeVictims l0 maxBytes = [] := if_neg hmax
  exact pairwise_of_forall fun t u ht => by simp [hnil] at ht

theorem Descending.oldest_selected (h : Descending l0) (hexp : Oldest l0 expired) :
    Oldest l0 ((selectFifoVictims l0 maxBytes expired).map (·.id)) := by
  refine (hexp.and (h.sizeVictims_closed maxBytes)).imp_of_mem fun ht hu htu hsel => ?_
  rw [h.mem_selected ht] at hsel
  rw [h.mem_selected hu]
  exact hsel.imp htu.1 htu.2

theorem Oldest.filter_append (h : Oldest l0 ids) :
    l0 = l0.filter (·.id ∉ ids) ++ l0.filter (·.id ∈ ids) := by
  induction l0
  case nil => rfl
  case cons t l0 ih =>
    rw [Oldest, pairwise_cons] at h
    by_cases ht : t.id ∈ ids
    case pos =>
      have hall : ∀ u ∈ l0, u.id ∈ ids := fun u hu => h.1 u hu ht
      have hnone : l0.filter (·.id ∉ ids) = [] := filter_eq_nil_iff.mpr (by simpa using hall)
      have hself : l0.filter (·.id ∈ ids) = l0 := filter_eq_self.mpr (by simpa using hall)
      rw [filter_cons_of_neg (by simp [ht]), filter_cons_of_pos (by simp [ht]), hnone, hself, nil_append]
    rw [filter_cons_of_pos (by simp [ht]), filter_cons_of_neg (by simp [ht]), cons_append]
    exact congrArg (t :: ·) (ih h.2)

end Select

end OndaDb.Fifo

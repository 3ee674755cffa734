import OndaDb.Prepared.Exact
import OndaDb.Prepared.Theorems.Recovery

namespace OndaDb.Prepared.Store

open List

variable {I K V : Type} {s : Store I K V} {g : Nat}

structure Layers (s : Store I K V) : Prop where
  order : s.mems.Pairwise fun m m' => ∀ g ∈ m.gens, ∀ g' ∈ m'.gens, g < g'
  active : s.gen ∈ s.active.gens
  floor : s.floor ≤ s.gen
  flushed : ∀ g ∈ s.gens.flushed, g < s.floor
  unlinks : ∀ g, s.Unlinks g → g < s.floor

theorem mem_lowestUnflushedGen (hm : m ∈ ms) (hg : g ∈ m.gens) :
    lowestUnflushedGen s.gen ms ≤ g := by
  have hmem : g ∈ ms.flatMap Sealed.gens := mem_flatMap.mpr ⟨m, hm, hg⟩
  rw [lowestUnflushedGen]
  rcases hmin : (ms.flatMap Sealed.gens).min? with _ | a
  · rw [min?_eq_none_iff] at hmin
    rw [hmin] at hmem
    cases hmem
  · exact (min?_eq_some_iff.mp hmin).2 g hmem

theorem lowestUnflushedGen_mem {m : Sealed I K V} (hm : m ∈ ms) (hg : g ∈ m.gens) :
    ∃ m' ∈ ms, lowestUnflushedGen s.gen ms ∈ m'.gens := by
  have hmem : g ∈ ms.flatMap Sealed.gens := mem_flatMap.mpr ⟨m, hm, hg⟩
  rw [lowestUnflushedGen]
  rcases hmin : (ms.flatMap Sealed.gens).min? with _ | a
  · rw [min?_eq_none_iff] at hmin
    rw [hmin] at hmem
    cases hmem
  · obtain ⟨m', hm', ha⟩ := mem_flatMap.mp (min?_eq_some_iff.mp hmin).1
    exact ⟨m', hm', ha⟩

namespace Layers

variable {imm : Sealed I K V} {imms : List (Sealed I K V)}

theorem imm_lt (h : s.Layers) (hs : s.imms = imm :: imms) (hg : g ∈ imm.gens) :
    g < lowestUnflushedGen s.gen (imms ++ [s.active]) := by
  have hmem : s.active ∈ imms ++ [s.active] := mem_append_right _ mem_cons_self
  obtain ⟨m, hm, hlow⟩ := lowestUnflushedGen_mem (s := s) hmem h.active
  have ho := h.order
  rw [mems, hs, cons_append, pairwise_cons] at ho
  exact ho.1 m hm g hg _ hlow

theorem order_of_gens {ms : List (Sealed I K V)} (h : s.Layers)
    (hm : ms.map Sealed.gens = s.mems.map Sealed.gens) :
    ms.Pairwise fun m m' => ∀ g ∈ m.gens, ∀ g' ∈ m'.gens, g < g' := by
  have ho : (s.mems.map Sealed.gens).Pairwise fun l l' => ∀ g ∈ l, ∀ g' ∈ l', g < g' :=
    pairwise_map.mpr h.order
  rw [← hm] at ho
  exact pairwise_map.mp ho

theorem start : Layers (start maxBytes : Store I K V) where
  order := pairwise_singleton _ _
  active := mem_cons_self
  floor := Nat.le_refl 0
  flushed := nofun
  unlinks := by simp [Store.start, Unlinks]

theorem rotate (h : s.Layers) (ha : s.Aged) : s.rotate.Layers where
  order := by
    rw [mems, Store.rotate, pairwise_append]
    refine ⟨h.order, pairwise_singleton _ _, fun m hm m' hm' g hg g' hg' => ?_⟩
    rw [mem_singleton] at hm'
    subst hm'
    rw [mem_singleton] at hg'
    rcases mem_append.mp hm with hm | hm
    · have := ha.imms m hm g hg
      omega
    · rw [mem_singleton] at hm
      subst hm
      have := ha.active g hg
      omega
  active := mem_cons_self
  floor := h.floor.trans (Nat.le_succ _)
  __ := h

theorem flush (h : s.Layers) : s.flush.Layers := by
  rw [Store.flush]
  split
  case h_1 => exact h
  case h_2 imm imms heq =>
    have ho := h.order
    rw [mems, heq, cons_append, pairwise_cons] at ho
    refine ⟨ho.2, h.active, ?_, ?_, ?_⟩
    · exact Nat.max_le.mpr ⟨h.floor, mem_lowestUnflushedGen
        (mem_append_right _ mem_cons_self) h.active⟩
    · intro g hg
      rcases (WalGenState.mem_foldl_markFlushed _).mp hg with hg | hg
      · exact Nat.lt_of_lt_of_le (h.imm_lt heq hg) (Nat.le_max_right _ _)
      · exact Nat.lt_of_lt_of_le (h.flushed g hg) (Nat.le_max_left _ _)
    · exact fun g hg => Nat.lt_of_lt_of_le (h.unlinks g hg) (Nat.le_max_left _ _)

theorem sweep (h : s.Layers) : s.sweep.Layers := by
  have hs := WalGenState.sweep_swept s.gens
  rw [Store.sweep]
  refine ⟨h.order, h.active, h.floor, fun g hg => ?_, fun g hg => ?_⟩
  · exact h.flushed g ((hs.flushed g).mp hg).1
  · obtain ⟨u, hu, hg⟩ := hg
    rcases mem_append.mp hu with hu | hu
    · exact h.unlinks g ⟨u, hu, hg⟩
    · rw [mem_singleton] at hu
      subst hu
      exact h.flushed g (hs.sub hg)

theorem unlink [DecidableEq I] (h : s.Layers) : (s.unlink i).Layers := by
  rw [Store.unlink]
  split
  case h_1 g gs ids heq =>
    refine ⟨h.order, h.active, h.floor, h.flushed, ?_⟩
    rintro g' ⟨u, hu, hg⟩
    rcases mem_or_eq_of_mem_set hu with hu | rfl
    · exact h.unlinks g' ⟨u, hu, hg⟩
    · exact h.unlinks g' ⟨_, mem_of_getElem? heq, mem_cons_of_mem _ hg⟩
  case h_2 ids heq =>
    refine ⟨h.order, h.active, h.floor, h.flushed, ?_⟩
    rintro g' ⟨u, hu, hg⟩
    exact h.unlinks g' ⟨u, mem_of_mem_eraseIdx hu, hg⟩
  case h_3 => exact h

theorem reopen [DecidableEq I] [LinearOrder K] {files : List (File I K V)} {tables : List (Item I K V)}
    {floor maxBytes : Nat} (h : Store.reopen size files tables floor maxBytes = .ok s) : s.Layers := by
  have hr := reopened h
  refine ⟨?_, ?_, ?_, ?_, ?_⟩
  · rw [mems, hr.imms]; exact pairwise_singleton _ _
  · rw [hr.gens]; exact mem_append_right _ mem_cons_self
  · rw [hr.floor]; exact hr.le
  · rw [hr.flushed]; exact nofun
  · simp [Unlinks, hr.unlinking]

end Layers

end OndaDb.Prepared.Store

import OndaDb.Fifo.Theorems.Oldest

namespace OndaDb.Fifo

open List

variable {K V : Type}

namespace State

variable {s : State K V}

theorem layers_cons (s : State K V) : s.layers = s.mem :: (s.imm.reverse.map (·.entries) ++ s.l0.map (·.entries)) :=
  rfl

theorem layers_seal : (s.exec .seal).layers = [] :: s.layers := by
  simp [exec, layers]

theorem map_entries_modify (imm : List (ImmMemtable K V)) (i : Nat) (file : Option (Nat × Nat)) :
    (imm.modify i ({ · with file })).map (·.entries) = imm.map (·.entries) := by
  induction imm generalizing i
  case nil => simp
  case cons m imm ih =>
    cases i
    case zero => rfl
    case succ i => exact congrArg (m.entries :: ·) (ih i)

theorem layers_startFlush (i bytes : Nat) : (s.exec (.startFlush i bytes)).layers = s.layers := by
  simp only [exec, layers, map_reverse, map_entries_modify]

theorem l0_installL0 (tables : List (Table K V)) : (s.installL0 tables).l0 = tables.reverse ++ s.l0 := by
  simp [installL0]

theorem installed_victims {l0 tables : List (Table K V)} {ids : List Nat} (ha : AscendingIds l0 tables)
    (h : Oldest l0 ids ∧ ∀ id ∈ ids, ∃ t ∈ l0, t.id = id) :
    Oldest (tables.reverse ++ l0) ids ∧ ∀ id ∈ ids, ∃ t ∈ tables.reverse ++ l0, t.id = id := by
  have hnot (t : Table K V) (ht : t ∈ tables.reverse) : t.id ∉ ids := by
    intro hid
    obtain ⟨u, hu, heq⟩ := h.2 t.id hid
    exact absurd (ha.1 t (mem_reverse.mp ht) u hu) (heq ▸ Nat.lt_irrefl _)
  refine ⟨pairwise_append.mpr ⟨?_, h.1, fun t ht u _ hid => absurd hid (hnot t ht)⟩, fun id hid => ?_⟩
  · exact pairwise_of_forall_mem_list fun t ht u _ hid => absurd hid (hnot t ht)
  · obtain ⟨t, ht, heq⟩ := h.2 id hid
    exact ⟨t, mem_append_right _ ht, heq⟩

theorem installed_ids {l0 tables : List (Table K V)} (ha : AscendingIds l0 tables) (h : Descending l0) :
    Descending (tables.reverse ++ l0) :=
  pairwise_append.mpr ⟨pairwise_reverse.mpr ha.2, h, fun t ht u hu => ha.1 t (mem_reverse.mp ht) u hu⟩

end State

variable [LinearOrder K]

namespace Entry

variable {e e' : Entry K V} {k : K}

theorem overlaps_of_covers (h : e.Covers k) (h' : e'.Covers k) : e.Overlaps e' := by
  cases e
  case point key n v =>
    cases h
    exact h'
  case range start stop n =>
    cases e'
    case point key n v =>
      cases h'
      exact h
    case range start' stop' n' => exact ⟨h.1.trans_lt h'.2, h'.1.trans_lt h.2⟩

theorem Overlaps.symm (h : e.Overlaps e') : e'.Overlaps e := by
  cases e <;> cases e'
  case point.point => exact Eq.symm h
  case point.range => exact h
  case range.point => exact h
  case range.range => exact And.symm h

end Entry

theorem over_nil (l : List (Entry K V)) : Over [] l :=
  nofun

namespace State

variable {s : State K V}

structure Sound (s : State K V) : Prop where
  ids : Descending s.l0
  layers : s.layers.Pairwise Over
  seqs : ∀ l ∈ s.layers, ∀ e ∈ l, e.seq < s.nextSeq
  ingestions : ∀ x ∈ s.ingestions, x.seq < s.nextSeq ∧ (∀ t ∈ x.done, ∀ e ∈ t.entries, e.seq = x.seq) ∧
    x.done.Pairwise fun t u => Over u.entries t.entries
  victims : ∀ ids ∈ s.victims, Oldest s.l0 ids ∧ ∀ id ∈ ids, ∃ t ∈ s.l0, t.id = id

theorem sound_init : (init : State K V).Sound where
  ids := .nil
  layers := pairwise_singleton ..
  seqs := by simp [layers, init]
  ingestions := by simp [init]
  victims := by simp [init]

theorem Sound.write (h : s.Sound) (he : e.seq = s.nextSeq) : (s.write e).Sound where
  __ := h
  layers := by
    have hl := h.layers
    rw [layers_cons, pairwise_cons] at hl ⊢
    refine ⟨fun older hold e₁ he₁ e₂ he₂ hov => ?_, hl.2⟩
    rcases mem_cons.mp he₁ with rfl | he₁
    · rw [he]
      exact h.seqs older (mem_cons_of_mem _ hold) e₂ he₂
    · exact hl.1 older hold e₁ he₁ e₂ he₂ hov
  seqs := by
    intro l hl e₁ he₁
    rcases mem_cons.mp hl with rfl | hl
    · rcases mem_cons.mp he₁ with rfl | he₁
      · exact he ▸ Nat.lt_succ_self _
      · exact Nat.lt_succ_of_lt (h.seqs s.mem (mem_cons_self ..) e₁ he₁)
    · exact Nat.lt_succ_of_lt (h.seqs l (mem_cons_of_mem _ hl) e₁ he₁)
  ingestions := fun x hx =>
    have hi := h.ingestions x hx
    ⟨Nat.lt_succ_of_lt hi.1, hi.2⟩

theorem Sound.of_sublist (h : s.Sound) {s' : State K V} (hl0 : s'.l0 = s.l0) (hl : s'.layers.Sublist s.layers)
    (hn : s'.nextSeq = s.nextSeq) (hi : s'.ingestions = s.ingestions) (hv : s'.victims = s.victims) : s'.Sound where
  ids := hl0 ▸ h.ids
  layers := h.layers.sublist hl
  seqs := fun l hmem e he => hn ▸ h.seqs l (hl.subset hmem) e he
  ingestions := by
    rw [hi, hn]
    exact h.ingestions
  victims := by
    rw [hv, hl0]
    exact h.victims

theorem Sound.seal (h : s.Sound) : (s.exec .seal).Sound where
  __ := h
  layers := by
    rw [layers_seal]
    exact pairwise_cons.mpr ⟨fun l _ => over_nil l, h.layers⟩
  seqs := by
    rw [layers_seal]
    intro l hmem e he
    rcases mem_cons.mp hmem with rfl | hmem
    · cases he
    · exact h.seqs l hmem e he

theorem Sound.startFlush (h : s.Sound) (i bytes : Nat) : (s.exec (.startFlush i bytes)).Sound := by
  refine h.of_sublist rfl ?_ rfl rfl rfl
  rw [layers_startFlush]

theorem Sound.publishFlush (h : s.Sound) (ho : s.Orderly .publishFlush) : (s.exec .publishFlush).Sound := by
  simp only [exec]
  split
  case h_1 => exact h
  case h_2 m imm himm =>
    have ha : AscendingIds s.l0 (flushed m) := ho m (by rw [himm]; rfl)
    have hl0 : (s.installL0 (flushed m)).l0 = (flushed m).reverse ++ s.l0 := l0_installL0 _
    -- The sealed memtable's layer becomes its table's, or goes if it was empty.
    have hl : (State.layers { s.installL0 (flushed m) with imm }).Sublist s.layers := by
      rw [layers_cons, layers_cons, himm]
      simp only [hl0, reverse_cons, map_append, append_assoc]
      refine List.Sublist.cons_cons _ ((List.Sublist.refl _).append ?_)
      refine List.Sublist.append ?_ (List.Sublist.refl _)
      rw [flushed]
      split
      case h_1 => exact nil_sublist _
      case h_2 =>
        split
        case isTrue => exact nil_sublist _
        case isFalse => exact List.Sublist.refl _
    refine ⟨?_, h.layers.sublist hl, fun l hmem e he => h.seqs l (hl.subset hmem) e he, h.ingestions, fun ids hids => ?_⟩
    · exact hl0 ▸ installed_ids ha h.ids
    · exact hl0 ▸ installed_victims ha (h.victims ids hids)

theorem Sound.startIngestion (h : s.Sound) : (s.exec .startIngestion).Sound where
  __ := h
  seqs := fun l hl e he => Nat.lt_succ_of_lt (h.seqs l hl e he)
  ingestions := by
    intro x hx
    rcases mem_append.mp hx with hx | hx
    · have hi := h.ingestions x hx
      exact ⟨Nat.lt_succ_of_lt hi.1, hi.2⟩
    · rw [mem_singleton] at hx
      subst hx
      exact ⟨Nat.lt_succ_self _, by simp, .nil⟩

theorem Sound.ingestFile (h : s.Sound) {i bytes : Nat} (he : s.Enabled (.ingestFile i bytes points)) :
    (s.exec (.ingestFile i bytes points)).Sound where
  __ := h
  ingestions := by
    obtain ⟨x, hx, -, hkeys⟩ := he
    intro y hy
    obtain ⟨j, hj, rfl⟩ := mem_iff_getElem.mp hy
    simp only [exec, getElem_modify, length_modify] at hj ⊢
    have hold := h.ingestions _ (getElem_mem hj)
    split
    case isFalse => exact hold
    case isTrue hij =>
      subst hij
      obtain rfl : s.ingestions[i] = x := by
        rw [Option.mem_def, getElem?_eq_getElem hj] at hx
        exact Option.some.inj hx
      refine ⟨hold.1, fun t ht e het => ?_, ?_⟩
      · rcases mem_append.mp ht with ht | ht
        · exact hold.2.1 t ht e het
        · rw [mem_singleton] at ht
          subst ht
          obtain ⟨p, -, rfl⟩ := mem_map.mp het
          rfl
      · refine pairwise_append.mpr ⟨hold.2.2, pairwise_singleton .., fun t ht u hu e he e' he' hov => ?_⟩
        rw [mem_singleton] at hu
        subst hu
        have hcross := (pairwise_append.mp hkeys).2.2 e' (mem_flatMap.mpr ⟨t, ht, he'⟩) e he
        exact absurd hov.symm hcross

theorem Sound.finishIngestion (h : s.Sound) {i : Nat} (ho : s.Orderly (.finishIngestion i)) :
    (s.exec (.finishIngestion i)).Sound := by
  simp only [exec]
  split
  case h_1 => exact h
  case h_2 x hx =>
    obtain ⟨ha, hover⟩ := ho x hx
    have hi := h.ingestions x (mem_of_getElem? hx)
    have hl0 : (s.installL0 x.done).l0 = x.done.reverse ++ s.l0 := l0_installL0 _
    have hlayers : (State.layers { s.installL0 x.done with ingestions := s.ingestions.eraseIdx i }) =
        s.mem :: (s.imm.reverse.map (·.entries) ++ (x.done.reverse.map (·.entries) ++ s.l0.map (·.entries))) := by
      rw [layers_cons]
      simp only [hl0, map_append]
      rfl
    have hold := h.layers
    rw [layers_cons, pairwise_cons, pairwise_append] at hold
    obtain ⟨hmem, himm, hl, himmL0⟩ := hold
    have hdone {l : List (Entry K V)} (hl : l ∈ x.done.reverse.map (·.entries)) : ∃ t ∈ x.done, t.entries = l := by
      simpa using hl
    refine ⟨hl0 ▸ installed_ids ha h.ids, ?_, fun l hmem e he => ?_, fun y hy => ?_, fun ids hids => ?_⟩
    · rw [hlayers, pairwise_cons, pairwise_append, pairwise_append]
      refine ⟨fun l hl => ?_, himm, ⟨?_, hl, fun l hl l' hl' => ?_⟩, fun l hl l' hl' => ?_⟩
      · rcases mem_append.mp hl with hl | hl
        · exact hmem l (mem_append_left _ hl)
        · rcases mem_append.mp hl with hl | hl
          · obtain ⟨t, ht, rfl⟩ := hdone hl
            exact (hover t ht).2.1
          · exact hmem l (mem_append_right _ hl)
      · exact pairwise_map.mpr (pairwise_reverse.mpr hi.2.2)
      · obtain ⟨t, ht, rfl⟩ := hdone hl
        obtain ⟨u, hu, rfl⟩ := mem_map.mp hl'
        exact (hover t ht).1 u hu
      · rcases mem_append.mp hl' with hl' | hl'
        · obtain ⟨t, ht, rfl⟩ := hdone hl'
          obtain ⟨m, hm, rfl⟩ := mem_map.mp hl
          exact (hover t ht).2.2 m (mem_reverse.mp hm)
        · exact himmL0 l hl l' hl'
    · rw [hlayers] at hmem
      have hcases : l ∈ s.layers ∨ l ∈ x.done.reverse.map (·.entries) := by
        rw [layers_cons]
        simp only [mem_cons, mem_append] at hmem ⊢
        tauto
      rcases hcases with hl | hl
      · exact h.seqs l hl e he
      · obtain ⟨t, ht, rfl⟩ := hdone hl
        exact (hi.2.1 t ht e he).trans_lt hi.1
    · exact h.ingestions y (mem_of_mem_eraseIdx hy)
    · exact hl0 ▸ installed_victims ha (h.victims ids hids)

theorem Sound.select {expired : List Nat} (h : s.Sound) (ho : s.Orderly (.select maxBytes expired)) :
    (s.exec (.select maxBytes expired)).Sound where
  __ := h
  victims := by
    rintro ids ⟨⟩
    refine ⟨h.ids.oldest_selected ho, fun id hid => ?_⟩
    obtain ⟨t, ht, rfl⟩ := mem_map.mp hid
    exact ⟨t, h.ids.selected_subset ht, rfl⟩

theorem Sound.evict (h : s.Sound) : (s.exec .evict).Sound := by
  have hl0 : (s.exec .evict).l0.Sublist s.l0 := filter_sublist
  have hl : (s.exec .evict).layers.Sublist s.layers := by
    refine List.Sublist.cons_cons _ ((List.Sublist.refl _).append ?_)
    exact hl0.map _
  exact ⟨h.ids.sublist hl0, h.layers.sublist hl, fun l hmem e he => h.seqs l (hl.subset hmem) e he, h.ingestions,
    nofun⟩

theorem Sound.exec (h : s.Sound) {e : Event K V} (he : s.Enabled e) (ho : s.Orderly e) : (s.exec e).Sound := by
  cases e
  case put key value => exact h.write rfl
  case deleteRange start stop => exact h.write rfl
  case «seal» => exact h.seal
  case startFlush i bytes => exact h.startFlush i bytes
  case publishFlush => exact h.publishFlush ho
  case startIngestion => exact h.startIngestion
  case ingestFile i bytes points => exact h.ingestFile he
  case finishIngestion i => exact h.finishIngestion ho
  case select maxBytes expired => exact h.select ho
  case evict => exact h.evict

theorem Sound.of_reachable (h : Reachable init OrderlyStep s) : s.Sound := by
  apply h.invariant sound_init
  rintro s s' ⟨e, he, ho, rfl⟩ hs
  exact hs.exec he ho

-- Evicting what a pass selected lets no reader see what something newer hid.
theorem Sound.visible_evict (h : s.Sound) (he : (s.exec .evict).visible k rs = some e) :
    s.visible k rs = some e := by
  let ids := s.victims.getD []
  have hold : Oldest s.l0 ids := by
    cases hv : s.victims
    case none =>
      simp only [ids, hv, Option.getD_none]
      exact pairwise_of_forall fun t u ht => by cases ht
    case some ids' =>
      simp only [ids, hv, Option.getD_some]
      exact (h.victims ids' hv).1
  let p : Entry K V → Bool := fun e => e.Covers k ∧ e.seq ≤ rs
  have hsplit : s.layers = (s.exec .evict).layers ++ (s.l0.filter (·.id ∈ ids)).map (·.entries) := by
    rw [layers_cons, layers_cons, cons_append, append_assoc, ← map_append]
    have hl0 : (s.exec .evict).l0 = s.l0.filter (·.id ∉ ids) := rfl
    rw [hl0, ← hold.filter_append]
    rfl
  have hover := h.layers
  rw [hsplit, pairwise_append] at hover
  rw [visible, hsplit, flatten_append, filter_append, newest_append]
  · exact Option.or_eq_some_iff.mpr (.inl he)
  · intro a ha b hb
    obtain ⟨ha, hca⟩ := mem_filter.mp ha
    obtain ⟨hb, hcb⟩ := mem_filter.mp hb
    obtain ⟨l, hl, hal⟩ := mem_flatten.mp ha
    obtain ⟨l', hl', hbl⟩ := mem_flatten.mp hb
    rw [decide_eq_true_eq] at hca hcb
    exact hover.2.2 l hl l' hl' a hal b hbl (Entry.overlaps_of_covers hca.1 hcb.1)

-- Where ids are taken in the order of publication, the size limit evicts the shortest part of the
-- oldest tables, and no eviction lets an older version show.
theorem eviction_forgets_oldest (h : Reachable init OrderlyStep s) :
    (∀ maxBytes, 0 < maxBytes → ∃ n ≤ s.l0.length,
      sizeVictims s.l0 maxBytes = (s.l0.drop n).reverse ∧ bytes (s.l0.take n) ≤ maxBytes ∧
      ∀ m, n < m → m ≤ s.l0.length → maxBytes < bytes (s.l0.take m)) ∧
    ∀ k rs e, (s.exec .evict).visible k rs = some e → s.visible k rs = some e := by
  have hs := Sound.of_reachable h
  exact ⟨fun _ hmax => hs.ids.sizeVictims_eq hmax, fun _ _ _ he => hs.visible_evict he⟩

-- A key written twice, each time into a memtable of its own, flushed by workers that take their ids
-- in the order `first`, `second`; then a pass with room for one of the two tables.
def twoFlushes (first second : Nat) : List (Event Nat Nat) :=
  [.put 1 (some 7), .seal, .put 1 none, .seal, .startFlush first 10, .startFlush second 10, .publishFlush, .publishFlush,
    .select 10 []]

theorem eviction_forgets_oldest_inOrder :
    ((twoFlushes 0 1).foldl exec init).victims = some [1] ∧
    (((twoFlushes 0 1).foldl exec init).exec .evict).visible 1 9 = some (.point 1 2 none) ∧
    ((twoFlushes 0 1).foldl exec init).visible 1 9 = some (.point 1 2 none) := by
  have hrun : Reachable init OrderlyStep ((twoFlushes 0 1).foldl exec init) :=
    Reachable.start.foldl (P := fun s e => s.Enabled e ∧ s.Orderly e) (fun _ e he => ⟨e, he.1, he.2, rfl⟩)
      (by decide +kernel)
  have hafter : (((twoFlushes 0 1).foldl exec init).exec .evict).visible 1 9 = some (.point 1 2 none) := by decide +kernel
  exact ⟨by decide +kernel, hafter, (eviction_forgets_oldest hrun).2 1 9 _ hafter⟩

-- The worker with the newer memtable takes its id first: its table goes, and the deleted value is back.
theorem newer_table_evicted :
    Allowed exec (fun s e => s.Enabled e) init (twoFlushes 1 0) ∧
    ((twoFlushes 1 0).foldl exec init).l0.map (·.id) = [1, 2] ∧
    (sizeVictims ((twoFlushes 1 0).foldl exec init).l0 10).map (·.id) = [1] ∧
    ((twoFlushes 1 0).foldl exec init).visible 1 9 = some (.point 1 2 none) ∧
    (((twoFlushes 1 0).foldl exec init).exec .evict).visible 1 9 = some (.point 1 1 (some 7)) := by
  decide +kernel

end State

end OndaDb.Fifo

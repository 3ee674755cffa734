import OndaDb.Catalog.Theorems.Apply

namespace OndaDb.Catalog

open List

namespace Manifest

variable {m m' : Manifest} {name : String} {f : CfManifest → CfManifest}

structure Grows (m m' : Manifest) : Prop where
  nextFileId : m.nextFileId ≤ m'.nextFileId
  globalSeq : m.globalSeq ≤ m'.globalSeq
  walLayout : m.walLayout = .unified → m'.walLayout = .unified
  walFloor : m.walFloor ≤ m'.walFloor

theorem Grows.refl (m : Manifest) : m.Grows m :=
  ⟨UInt64.le_refl _, UInt64.le_refl _, id, UInt64.le_refl _⟩

theorem Grows.trans (h : m.Grows m') (h' : m'.Grows m'') : m.Grows m'' where
  nextFileId := UInt64.le_trans h.nextFileId h'.nextFileId
  globalSeq := UInt64.le_trans h.globalSeq h'.globalSeq
  walLayout := h'.walLayout ∘ h.walLayout
  walFloor := UInt64.le_trans h.walFloor h'.walFloor

theorem grows_mutate (ha : m.Accepts op) : m.Grows (mutate m op) := by
  have hrefl := Grows.refl m
  cases op
  case setNextFileId v => exact { hrefl with nextFileId := UInt64.not_lt.mp ha }
  case setGlobalSeq v => exact { hrefl with globalSeq := UInt64.not_lt.mp ha }
  case setWalLayout l => exact { hrefl with walLayout := fun _ => ha.1 }
  case setWalFloor g => exact { hrefl with walFloor := UInt64.le_of_lt (UInt64.not_le.mp ha.2.2) }
  all_goals exact ⟨UInt64.le_refl _, UInt64.le_refl _, id, UInt64.le_refl _⟩

theorem mem_modifyFirst {α : Type} {p : α → Bool} {g : α → α} {l : List α} {a : α}
    (h : a ∈ modifyFirst p g l) : a ∈ l ∨ ∃ b ∈ l, p b = true ∧ a = g b := by
  induction l
  case nil => exact absurd h (by simp [modifyFirst])
  case cons b l ih =>
    rw [modifyFirst] at h
    split at h
    case isTrue hb =>
      obtain rfl | h := mem_cons.mp h
      · exact .inr ⟨b, mem_cons_self, hb, rfl⟩
      · exact .inl (mem_cons_of_mem _ h)
    obtain rfl | h := mem_cons.mp h
    · exact .inl mem_cons_self
    · refine (ih h).imp (mem_cons_of_mem _) fun hb => ?_
      obtain ⟨b, hb, hp⟩ := hb
      exact ⟨b, mem_cons_of_mem _ hb, hp⟩

theorem Distinct.modifyCf (h : m.Distinct) (hf : ∀ cf, (f cf).name = cf.name)
    (hids : ∀ cf ∈ m.cfs, cf.name = name → ((f cf).sstables.map (·.id)).Nodup) : (m.modifyCf name f).Distinct where
  names := by
    rw [Manifest.modifyCf, map_modifyFirst CfManifest.name hf]
    exact h.names
  ids := by
    intro cf hcf
    obtain hcf | ⟨cf', hcf', hn, rfl⟩ := mem_modifyFirst hcf
    · exact h.ids cf hcf
    · exact hids cf' hcf' (by simpa using hn)

theorem nodup_addTable {cf : CfManifest} {t : SstMeta} (h : (cf.sstables.map (·.id)).Nodup)
    (ht : cf.level? t.id = none) : ((cf.addTable t).sstables.map (·.id)).Nodup := by
  have hnew : t.id ∉ cf.sstables.map (·.id) := by
    intro hm
    obtain ⟨s, hs, he⟩ := mem_map.mp hm
    exact CfManifest.level?_eq_none.mp ht s hs he
  rw [CfManifest.addTable]
  dsimp only
  split
  case isTrue => exact nodup_cons.mpr ⟨hnew, h⟩
  rw [map_append, map_singleton]
  exact nodup_append.mpr ⟨h, nodup_singleton _, fun a ha b hb he =>
    hnew (mem_singleton.mp hb ▸ he ▸ ha)⟩

theorem nodup_retain {cf : CfManifest} (keep : SstMeta → Bool) (h : (cf.sstables.map (·.id)).Nodup) :
    ((cf.retain keep).sstables.map (·.id)).Nodup :=
  h.sublist (filter_sublist.map _)

theorem Distinct.mutate (h : m.Distinct) {op : Op} (ha : m.Accepts op) : (mutate m op).Distinct := by
  cases op
  case addTable cf t =>
    refine h.modifyCf (fun _ => rfl) fun f hf hn => nodup_addTable (h.ids f hf) ?_
    obtain ⟨f', hf', hid⟩ := ha
    obtain rfl := Option.some.inj ((hn ▸ h.family_eq hf).symm.trans hf')
    exact hid
  case removeTable cf id level => exact h.modifyCf (fun _ => rfl) fun f hf _ => nodup_retain _ (h.ids f hf)
  case removeTables cf ids => exact h.modifyCf (fun _ => rfl) fun f hf _ => nodup_retain _ (h.ids f hf)
  case updateTable cf id u =>
    refine h.modifyCf (fun _ => rfl) fun f hf _ => ?_
    have hid (t : SstMeta) : (u.applyTo t).id = t.id := rfl
    have hmap : (modifyFirst (·.id = id) u.applyTo f.sstables).map (·.id) = f.sstables.map (·.id) :=
      map_modifyFirst SstMeta.id hid
    exact hmap ▸ h.ids f hf
  case setCfConfig name config => exact h.modifyCf (fun _ => rfl) fun f hf _ => h.ids f hf
  case setCfUnifiedId name id => exact h.modifyCf (fun _ => rfl) fun f hf _ => h.ids f hf
  case createCf name config =>
    have hnew : name ∉ m.cfs.map (·.name) := by
      intro hm
      obtain ⟨cf, hcf, rfl⟩ := mem_map.mp hm
      exact absurd (ha.symm.trans (h.family_eq hcf)) nofun
    constructor
    case names =>
      rw [Catalog.mutate, map_append, map_singleton]
      refine nodup_append.mpr ⟨h.names, nodup_singleton _, fun a hm b hb he => hnew ?_⟩
      obtain rfl : b = name := mem_singleton.mp hb
      exact he ▸ hm
    case ids =>
      intro cf hcf
      obtain hcf | hcf := mem_append.mp hcf
      · exact h.ids cf hcf
      · rw [mem_singleton.mp hcf]
        exact nodup_nil
  case dropCf name =>
    constructor
    case names => exact h.names.sublist (filter_sublist.map _)
    case ids => exact fun cf hcf => h.ids cf (mem_of_mem_filter hcf)
  all_goals exact ⟨h.names, h.ids⟩

theorem AcceptsAll.run (h : m.Distinct) (ha : m.AcceptsAll ops) :
    (ops.foldl Catalog.mutate m).Distinct ∧ m.Grows (ops.foldl Catalog.mutate m) := by
  induction ops generalizing m
  case nil => exact ⟨h, .refl m⟩
  case cons op ops ih =>
    obtain ⟨hd, hg⟩ := ih (h.mutate ha.1) ha.2
    exact ⟨hd, (grows_mutate ha.1).trans hg⟩

end Manifest

theorem applyEditMut_of_accepts (hd : m.Distinct) (ha : m.AcceptsAll edit.ops) :
    applyEditMut m edit = (edit.ops.foldl mutate m, .ok ()) := by
  obtain ⟨c, hv, -⟩ := (Candidate.tracks_lazy hd).validate ha 0
  rw [applyEditMut, hv]

theorem applyEditMut_of_not_accepts (hd : m.Distinct) (ha : ¬ m.AcceptsAll edit.ops) :
    ∃ e, applyEditMut m edit = (m, .error e) := by
  cases hv : validate (.lazy m) 0 edit.ops
  case error e => exact ⟨e, by rw [applyEditMut, hv]⟩
  case ok c => exact absurd ((Candidate.tracks_lazy hd).acceptsAll hv) ha

namespace CatalogReplayer

variable {r : CatalogReplayer}

theorem apply_of_accepts (ht : r.candidate.Tracks r.manifest) (ha : r.manifest.AcceptsAll edit.ops) :
    ∃ c, r.apply edit = .ok ⟨edit.ops.foldl mutate r.manifest, c⟩ ∧ c.Tracks (edit.ops.foldl mutate r.manifest) := by
  obtain ⟨c, hv, hc⟩ := ht.validate ha 0
  exact ⟨c, by rw [apply, hv]; rfl, hc⟩

theorem apply_of_not_accepts (ht : r.candidate.Tracks r.manifest) (ha : ¬ r.manifest.AcceptsAll edit.ops) :
    ∃ e, r.apply edit = .error e := by
  cases hv : validate r.candidate 0 edit.ops
  case error e => exact ⟨e, by rw [apply, hv]; rfl⟩
  case ok c => exact absurd (ht.acceptsAll hv) ha

theorem replay_eq (ht : r.candidate.Tracks r.manifest) (hd : r.manifest.Distinct) (edits : List VersionEdit) :
    r.replay edits = applyEdits r.manifest edits := by
  induction edits generalizing r
  case nil => rfl
  case cons edit edits ih =>
    rw [replay, applyEdits]
    by_cases ha : r.manifest.AcceptsAll edit.ops
    case pos =>
      obtain ⟨c, hr, hc⟩ := apply_of_accepts ht ha
      rw [hr, applyEditMut_of_accepts hd ha]
      dsimp only
      rw [ih hc (ha.run hd).left]
    obtain ⟨e, hr⟩ := apply_of_not_accepts ht ha
    obtain ⟨e', hm⟩ := applyEditMut_of_not_accepts hd ha
    rw [hr, hm]
    rfl

end CatalogReplayer

theorem applyEdits_run (hd : m.Distinct) (edits : List VersionEdit) :
    (applyEdits m edits).2.Distinct ∧ m.Grows (applyEdits m edits).2 := by
  induction edits generalizing m
  case nil => exact ⟨hd, .refl m⟩
  case cons edit edits ih =>
    rw [applyEdits]
    by_cases ha : m.AcceptsAll edit.ops
    case pos =>
      rw [applyEditMut_of_accepts hd ha]
      obtain ⟨hd', hg⟩ := ha.run hd
      obtain ⟨hd'', hg'⟩ := ih hd'
      exact ⟨hd'', hg.trans hg'⟩
    obtain ⟨e, hm⟩ := applyEditMut_of_not_accepts hd ha
    rw [hm]
    exact ⟨hd, .refl m⟩

theorem replayer_agrees (m : Manifest) (hd : m.Distinct) (edits : List VersionEdit) :
    (CatalogReplayer.new m).replay edits = applyEdits m edits ∧
      (applyEdits m edits).2.Distinct ∧ m.Grows (applyEdits m edits).2 ∧
      ∀ edit e, (applyEditMut m edit).2 = .error e → (applyEditMut m edit).1 = m := by
  obtain ⟨hd', hg⟩ := applyEdits_run hd edits
  refine ⟨CatalogReplayer.replay_eq (Candidate.tracks_eager hd) hd edits, hd', hg, fun edit e he => ?_⟩
  rw [applyEditMut] at he ⊢
  split at he
  case h_1 => rfl
  case h_2 => exact absurd he nofun

-- A family that is dropped and created again, and an edit that is rejected.
theorem replayer_agrees_recreated :
    (CatalogReplayer.new { cfs := [⟨"a", [], [{ id := 1 }], none⟩] }).replay
        [⟨[.removeTable "a" 1 0, .dropCf "a", .createCf "a" [7]]⟩, ⟨[.addTable "a" { id := 1, level := 2 }]⟩,
          ⟨[.setNextFileId 9, .addTable "a" { id := 1 }]⟩] =
      (2, { cfs := [⟨"a", [7], [{ id := 1, level := 2 }], none⟩] }) := by
  have hd : Manifest.Distinct { cfs := [⟨"a", [], [{ id := 1 }], none⟩] } :=
    ⟨by decide, by decide⟩
  refine (replayer_agrees _ hd _).left.trans ?_
  decide +kernel

-- With two families of one name the index knows the last one, a single edit finds the first.
theorem replayer_differs_twins :
    (CatalogReplayer.new { cfs := [⟨"a", [], [{ id := 1 }], none⟩, ⟨"a", [], [], none⟩] }).replay
        [⟨[.removeTable "a" 1 0]⟩] ≠
      applyEdits { cfs := [⟨"a", [], [{ id := 1 }], none⟩, ⟨"a", [], [], none⟩] } [⟨[.removeTable "a" 1 0]⟩] := by
  decide +kernel

end OndaDb.Catalog

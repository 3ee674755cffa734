import OndaDb.Prepared.Reuse

namespace OndaDb.Prepared

open List

variable {I K V : Type}

theorem SyncedAt.at (h : SyncedAt files g f) :
    At files g f := by
  obtain ⟨file, hf, hg, hm⟩ := h
  exact ⟨file, hf, hg, true, hm⟩

namespace Store

variable {files : List (File I K V)} {s : Store I K V} {g : Nat} {f f' : Frame I K V} {id : I}
  {inst : Nat} {ws : List (WriteEntry K V)}

theorem mem_prepares :
    p ∈ prepares files ↔ At files p.gen (.prepare p.id p.inst p.writes) := by
  simp only [prepares, mem_flatMap, mem_filterMap, At]
  constructor
  · rintro ⟨file, hf, ⟨f, b⟩, hm, hp⟩
    cases f <;> simp only [reduceCtorEq, Option.some.injEq] at hp
    subst hp
    exact ⟨file, hf, rfl, b, hm⟩
  · rintro ⟨file, hf, hg, b, hm⟩
    exact ⟨file, hf, _, hm, by rw [hg]⟩

theorem mem_decisions :
    d ∈ decisions files ↔ At files d.gen (.decision d.id d.inst d.commit) := by
  simp only [decisions, mem_flatMap, mem_filterMap, At]
  constructor
  · rintro ⟨file, hf, ⟨f, b⟩, hm, hp⟩
    cases f <;> simp only [reduceCtorEq, Option.some.injEq] at hp
    subst hp
    exact ⟨file, hf, rfl, b, hm⟩
  · rintro ⟨file, hf, hg, b, hm⟩
    exact ⟨file, hf, _, hm, by rw [hg]⟩

theorem at_append : At (s.append f).files g f' ↔
    At s.files g f' ∨ g = s.gen ∧ f' = f ∧ g ∈ s.files.map File.gen := by
  simp only [append, At, mem_map]
  constructor
  · rintro ⟨file, ⟨file₀, hf, rfl⟩, hg, b, hm⟩
    split at hm
    case isTrue h =>
      rw [if_pos h] at hg
      rcases mem_append.mp hm with hm | hm
      · exact .inl ⟨file₀, hf, hg, b, hm⟩
      · rw [mem_singleton, Prod.mk.injEq] at hm
        exact .inr ⟨hg.symm.trans h, hm.1, file₀, hf, hg⟩
    case isFalse h =>
      rw [if_neg h] at hg
      exact .inl ⟨file₀, hf, hg, b, hm⟩
  · rintro (⟨file, hf, hg, b, hm⟩ | ⟨rfl, rfl, file, hf, hg⟩)
    · refine ⟨_, ⟨file, hf, rfl⟩, ?_⟩
      split
      · exact ⟨hg, b, mem_append.mpr (.inl hm)⟩
      · exact ⟨hg, b, hm⟩
    · refine ⟨_, ⟨file, hf, rfl⟩, ?_⟩
      rw [if_pos hg]
      exact ⟨hg, false, by simp⟩

theorem syncedAt_append (h : SyncedAt s.files g f') : SyncedAt (s.append f).files g f' := by
  obtain ⟨file, hf, hg, hm⟩ := h
  refine ⟨_, mem_map.mpr ⟨file, hf, rfl⟩, ?_⟩
  split
  · exact ⟨hg, mem_append.mpr (.inl hm)⟩
  · exact ⟨hg, hm⟩

theorem at_sync : At (s.sync g').files g f ↔ At s.files g f := by
  simp only [sync, At, mem_map]
  constructor
  · rintro ⟨file, ⟨file₀, hf, rfl⟩, hg, b, hm⟩
    refine ⟨file₀, hf, ?_⟩
    split at hm
    case isTrue h =>
      rw [if_pos h] at hg
      obtain ⟨⟨f', b'⟩, hm, heq⟩ := mem_map.mp hm
      rw [Prod.mk.injEq] at heq
      exact ⟨hg, b', heq.1 ▸ hm⟩
    case isFalse h =>
      rw [if_neg h] at hg
      exact ⟨hg, b, hm⟩
  · rintro ⟨file, hf, hg, b, hm⟩
    refine ⟨_, ⟨file, hf, rfl⟩, ?_⟩
    split
    · exact ⟨hg, true, mem_map.mpr ⟨(f, b), hm, rfl⟩⟩
    · exact ⟨hg, b, hm⟩

theorem syncedAt_sync (h : SyncedAt s.files g f) : SyncedAt (s.sync g').files g f := by
  obtain ⟨file, hf, hg, hm⟩ := h
  refine ⟨_, mem_map.mpr ⟨file, hf, rfl⟩, ?_⟩
  split
  · exact ⟨hg, mem_map.mpr ⟨(f, true), hm, rfl⟩⟩
  · exact ⟨hg, hm⟩

theorem syncedAt_sync_self (h : At s.files g f) : SyncedAt (s.sync g).files g f := by
  obtain ⟨file, hf, hg, b, hm⟩ := h
  refine ⟨_, mem_map.mpr ⟨file, hf, rfl⟩, ?_⟩
  rw [if_pos hg]
  exact ⟨hg, mem_map.mpr ⟨(f, b), hm, rfl⟩⟩

theorem at_filter : At (files.filter (·.gen ≠ g')) g f ↔ At files g f ∧ g ≠ g' := by
  simp only [At, mem_filter]
  constructor
  · rintro ⟨file, ⟨hf, hne⟩, rfl, hm⟩
    exact ⟨⟨file, hf, rfl, hm⟩, by simpa using hne⟩
  · rintro ⟨⟨file, hf, rfl, hm⟩, hne⟩
    exact ⟨file, ⟨hf, by simpa using hne⟩, rfl, hm⟩

theorem syncedAt_filter :
    SyncedAt (files.filter (·.gen ≠ g')) g f ↔ SyncedAt files g f ∧ g ≠ g' := by
  simp only [SyncedAt, mem_filter]
  constructor
  · rintro ⟨file, ⟨hf, hne⟩, rfl, hm⟩
    exact ⟨⟨file, hf, rfl, hm⟩, by simpa using hne⟩
  · rintro ⟨⟨file, hf, rfl, hm⟩, hne⟩
    exact ⟨file, ⟨hf, by simpa using hne⟩, rfl, hm⟩

theorem at_new : At (files ++ [⟨g', []⟩]) g f ↔ At files g f := by
  simp [At]

theorem syncedAt_new : SyncedAt (files ++ [⟨g', []⟩]) g f ↔ SyncedAt files g f := by
  simp [SyncedAt]

theorem at_of_survivors (h : At (survivors sv files) g f) :
    At files g f := by
  obtain ⟨file, hf, hg, b, hm⟩ := h
  obtain ⟨file₀, hf₀, rfl⟩ := mem_map.mp hf
  obtain ⟨⟨f', b'⟩, hm, heq⟩ := mem_map.mp hm
  rw [Prod.mk.injEq] at heq
  exact ⟨file₀, hf₀, hg, b', heq.1 ▸ (mem_filter.mp hm).1⟩

theorem syncedAt_survivors (h : SyncedAt files g f) :
    SyncedAt (survivors sv files) g f := by
  obtain ⟨file, hf, hg, hm⟩ := h
  exact ⟨_, mem_map.mpr ⟨file, hf, rfl⟩, hg, mem_map.mpr
    ⟨(f, true), mem_filter.mpr ⟨hm, rfl⟩, rfl⟩⟩

theorem synced_of_survivors (h : At (survivors sv files) g f) :
    SyncedAt (survivors sv files) g f := by
  obtain ⟨file, hf, hg, b, hm⟩ := h
  obtain ⟨file₀, hf₀, rfl⟩ := mem_map.mp hf
  obtain ⟨⟨f', b'⟩, hm', heq⟩ := mem_map.mp hm
  rw [Prod.mk.injEq] at heq
  obtain rfl : true = b := heq.2
  exact ⟨_, hf, hg, hm⟩

@[simp] theorem gens_append : (s.append f).files.map File.gen = s.files.map File.gen := by
  rw [append, map_map]
  refine map_congr_left fun file _ => ?_
  simp only [Function.comp_apply]
  split <;> rfl

@[simp] theorem gens_sync : (s.sync g).files.map File.gen = s.files.map File.gen := by
  rw [sync, map_map]
  refine map_congr_left fun file _ => ?_
  simp only [Function.comp_apply]
  split <;> rfl

@[simp] theorem gens_survivors {sv : Nat → Frame I K V → Bool} :
    (survivors sv files).map File.gen = files.map File.gen := by
  rw [survivors, map_map]
  rfl

def asPrepare (g : Nat) : Frame I K V → Option (RecoveredPrepare I K V)
  | .prepare id inst ws => some ⟨id, inst, ws, g⟩
  | _ => none

theorem prepares_eq (files : List (File I K V)) :
    prepares files = files.flatMap fun file => (file.frames.map (·.1)).filterMap (asPrepare file.gen) := by
  rw [prepares]
  congr 1
  funext file
  rw [filterMap_map]
  congr 1

theorem prepares_append (hn : (s.files.map File.gen).Nodup) (hg : s.gen ∈ s.files.map File.gen) :
    (prepares (s.append f).files).Perm ((asPrepare s.gen f).toList ++ prepares s.files) := by
  simp only [prepares_eq, append]
  generalize s.files = files at hn hg
  induction files with
  | nil => simp at hg
  | cons file files ih =>
    rw [map_cons, nodup_cons] at hn
    rw [map_cons, flatMap_cons, flatMap_cons]
    by_cases h : file.gen = s.gen
    · have hrest : (files.map fun file => if file.gen = s.gen then
          { file with frames := file.frames ++ [(f, false)] } else file) = files := by
        refine (map_congr_left fun file' hf => ?_).trans (map_id _)
        refine if_neg fun h' => hn.1 ?_
        exact mem_map.mpr ⟨file', hf, h'.trans h.symm⟩
      rw [hrest, if_pos h, map_append, filterMap_append, h]
      have hf : ([(f, false)].map (·.1)).filterMap (asPrepare s.gen) = (asPrepare s.gen f).toList := by
        cases h : asPrepare s.gen f <;> simp [h]
      rw [hf, append_assoc]
      refine perm_append_comm.trans ?_
      rw [append_assoc]
      exact List.Perm.append_left _ perm_append_comm
    · have hg' : s.gen ∈ files.map File.gen := by
        rcases mem_cons.mp hg with hg | hg
        · exact absurd hg.symm h
        · exact hg
      rw [if_neg h]
      refine (List.Perm.append_left _ (ih hn.2 hg')).trans ?_
      rw [← append_assoc, ← append_assoc]
      exact List.Perm.append_right _ perm_append_comm

theorem once_append (h : ((prepares s.files).map RecoveredPrepare.id).Nodup)
    (hn : (s.files.map File.gen).Nodup) (hg : s.gen ∈ s.files.map File.gen)
    (hp : ∀ id i ws, f = .prepare id i ws → ∀ g i ws, ¬ At s.files g (.prepare id i ws)) :
    ((prepares (s.append f).files).map RecoveredPrepare.id).Nodup := by
  refine ((prepares_append hn hg).map RecoveredPrepare.id).nodup_iff.mpr ?_
  cases f
  case data => exact h
  case decision => exact h
  case prepare id i ws =>
    refine nodup_cons.mpr ⟨fun hm => ?_, h⟩
    obtain ⟨p, hp', rfl⟩ := mem_map.mp hm
    exact hp p.id i ws rfl _ _ _ (mem_prepares.mp hp')

theorem prepares_sync : prepares (s.sync g).files = prepares s.files := by
  simp only [prepares_eq, sync, flatMap_map]
  congr 1
  funext file
  split
  · simp
  · rfl

theorem prepares_filter (p : File I K V → Bool) : (prepares (files.filter p)).Sublist (prepares files) := by
  rw [prepares_eq, prepares_eq]
  exact List.Sublist.flatMap filter_sublist _

theorem prepares_new : prepares (files ++ [⟨g, []⟩]) = prepares files := by
  simp [prepares_eq]

theorem prepares_survivors (sv : Nat → Frame I K V → Bool) :
    (prepares (survivors sv files)).Sublist (prepares files) := by
  simp only [prepares_eq, survivors]
  induction files with
  | nil => simp
  | cons file files ih =>
    rw [map_cons, flatMap_cons, flatMap_cons]
    refine List.Sublist.append ?_ ih
    simp only [map_map, Function.comp_def]
    exact List.Sublist.filterMap _ (List.Sublist.map _ filter_sublist)

end Store

end OndaDb.Prepared

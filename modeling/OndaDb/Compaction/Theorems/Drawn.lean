import OndaDb.Compaction.Job

-- Where the inputs of a compaction job come from, and in which order it lists them.
namespace OndaDb

open List

variable {K V : Type} {levels : Levels K V} {t : Table K V}

namespace Levels

theorem level_sublist_flatten (i : Nat) : (levels.level i).Sublist levels.flatten := by
  rw [level]
  cases h : levels[i]?
  case none => exact nil_sublist _
  case some l => exact sublist_flatten_of_mem (mem_of_getElem? h)

theorem ids_nodup (hid : (levels.flatten.map Table.id).Nodup) (i : Nat) :
    ((levels.level i).map Table.id).Nodup :=
  hid.sublist ((level_sublist_flatten i).map _)

theorem eq_of_id (hid : (levels.flatten.map Table.id).Nodup) (ht : t ∈ levels.level i)
    (hu : u ∈ levels.level j) (h : t.id = u.id) : t = u :=
  inj_on_of_nodup_map hid ((level_sublist_flatten i).subset ht) ((level_sublist_flatten j).subset hu) h

theorem mem_of_own {n : Nat} (h : (own (levels.level i))[n]? = some t) : t ∈ levels.level i :=
  mem_of_mem_filter (mem_of_getElem? h)

end Levels

inductive Drawn (levels : Levels K V) : List (Table K V) → Prop
  | inOrder (hij : i < j) (hu : us.Sublist (levels.level i)) (hl : ls.Sublist (levels.level j)) :
    Drawn levels (us ++ ls)
  | oldestFirst (hj : 0 < j) (hu : us.reverse.Sublist (levels.level 0)) (hl : ls.Sublist (levels.level j)) :
    Drawn levels (us ++ ls)

namespace Drawn

variable {inputs : List (Table K V)}

theorem one (h : inputs.Sublist (levels.level i)) : Drawn levels inputs := by
  have := inOrder (Nat.lt_succ_self i) h (nil_sublist (levels.level (i + 1)))
  rwa [append_nil] at this

theorem mem_level (d : Drawn levels inputs) (ht : t ∈ inputs) : ∃ i, t ∈ levels.level i := by
  cases d
  case inOrder i j us ls _ hu hl =>
    exact (mem_append.mp ht).elim (fun h => ⟨i, hu.subset h⟩) fun h => ⟨j, hl.subset h⟩
  case oldestFirst j us ls _ hu hl =>
    exact (mem_append.mp ht).elim (fun h => ⟨0, hu.subset (mem_reverse.mpr h)⟩)
      fun h => ⟨j, hl.subset h⟩

section

variable {levelOf : Table K V → Nat} (hid : (levels.flatten.map Table.id).Nodup)
  (hl : ∀ i, ∀ t ∈ levels.level i, levelOf t = i)
include hl

theorem filter_of_level (h : ∀ t ∈ inputs, t ∈ levels.level j) :
    inputs.filter (levelOf · = i) = if i = j then inputs else [] := by
  split
  case isTrue hij =>
    exact filter_eq_self.mpr fun t ht => decide_eq_true (hij ▸ hl j t (h t ht))
  case isFalse hij =>
    apply filter_eq_nil_iff.mpr
    intro t ht hc
    exact hij ((of_decide_eq_true hc).symm.trans (hl j t (h t ht)))

theorem filter_sublist (d : Drawn levels inputs) (hi : 0 < i) :
    (inputs.filter (levelOf · = i)).Sublist (levels.level i) := by
  cases d
  case inOrder j k us ls hjk hu hs =>
    rw [filter_append, filter_of_level hl fun _ h => hu.subset h, filter_of_level hl fun _ h => hs.subset h]
    by_cases hj : i = j
    case pos => simpa [hj, hjk.ne] using hu
    rw [if_neg hj, nil_append]
    split
    case isTrue hk => exact hk ▸ hs
    case isFalse => exact nil_sublist _
  case oldestFirst k us ls hk hu hs =>
    rw [filter_append, filter_of_level hl fun _ h => hu.subset (mem_reverse.mpr h),
      filter_of_level hl fun _ h => hs.subset h, if_neg hi.ne', nil_append]
    split
    case isTrue hk => exact hk ▸ hs
    case isFalse => exact nil_sublist _

include hid

theorem ids_apart {us ls : List (Table K V)} (hij : i ≠ j) (hu : ∀ t ∈ us, t ∈ levels.level i)
    (hs : ∀ t ∈ ls, t ∈ levels.level j) : ∀ a ∈ us.map Table.id, ∀ b ∈ ls.map Table.id, a ≠ b := by
  intro a ha b hb hab
  obtain ⟨t, ht, rfl⟩ := mem_map.mp ha
  obtain ⟨u, hu', rfl⟩ := mem_map.mp hb
  have he := Levels.eq_of_id hid (hu t ht) (hs u hu') hab
  exact hij ((hl i t (hu t ht)).symm.trans (he ▸ hl j u (hs u hu')))

theorem ids_nodup (d : Drawn levels inputs) : (inputs.map Table.id).Nodup := by
  cases d
  case inOrder i j us ls hij hu hs =>
    rw [map_append, nodup_append]
    exact ⟨(Levels.ids_nodup hid i).sublist (hu.map _), (Levels.ids_nodup hid j).sublist (hs.map _),
      ids_apart hid hl hij.ne (fun _ h => hu.subset h) fun _ h => hs.subset h⟩
  case oldestFirst j us ls hj hu hs =>
    have hn := (Levels.ids_nodup hid 0).sublist (hu.map _)
    rw [map_reverse, nodup_reverse] at hn
    rw [map_append, nodup_append]
    exact ⟨hn, (Levels.ids_nodup hid j).sublist (hs.map _),
      ids_apart hid hl hj.ne (fun _ h => hu.subset (mem_reverse.mpr h)) fun _ h => hs.subset h⟩

theorem mem_filter_iff (d : Drawn levels inputs) (ht : t ∈ levels.level i) :
    t ∈ inputs.filter (levelOf · = i) ↔ t.id ∈ inputs.map Table.id := by
  rw [mem_filter, and_iff_left (decide_eq_true (hl i t ht))]
  refine ⟨mem_map_of_mem, fun h => ?_⟩
  obtain ⟨u, hu, hid'⟩ := mem_map.mp h
  obtain ⟨j, hj⟩ := d.mem_level hu
  exact Levels.eq_of_id hid hj ht hid' ▸ hu

theorem filter_eq (d : Drawn levels inputs) (hi : 0 < i) :
    inputs.filter (levelOf · = i) = (levels.level i).filter (·.id ∈ inputs.map Table.id) := by
  have hs := d.filter_sublist hl hi
  have hn : (levels.level i).Nodup := (Levels.ids_nodup hid i).of_map
  have hf := hs.filter (fun t => decide (t.id ∈ inputs.map Table.id))
  rw [filter_eq_self.mpr fun t ht => by
    simpa using mem_map_of_mem (f := Table.id) (mem_of_mem_filter ht)] at hf
  apply hf.eq_of_length
  apply List.Perm.length_eq
  rw [perm_ext_iff_of_nodup (hn.sublist hs) (hn.filter _)]
  intro t
  constructor
  case mp =>
    intro h
    have hi := (d.mem_filter_iff hid hl (hs.subset h)).mp h
    exact mem_filter.mpr ⟨hs.subset h, decide_eq_true hi⟩
  case mpr =>
    intro h
    obtain ⟨h, hi⟩ := mem_filter.mp h
    exact (d.mem_filter_iff hid hl h).mpr (of_decide_eq_true hi)

end

variable [LinearOrder K]

theorem rangeInputs :
    (levels.rangeInputs i lower upper).Sublist (levels.level i) := by
  unfold Levels.rangeInputs
  split
  case isTrue h =>
    subst h
    exact List.filter_sublist.trans (dropWhile_sublist _)
  case isFalse => exact List.filter_sublist.trans List.filter_sublist

theorem rangeRewrite : Drawn levels (levels.rangeRewrite floor lower upper) := by
  unfold Levels.rangeRewrite
  dsimp only
  split
  case isTrue => exact one (nil_sublist (levels.level 0))
  case isFalse => exact one List.filter_sublist

variable [Inhabited K] {cfg : Config K V}

theorem gatherTarget_eq (h : levels.gatherTarget j us = some ts) :
    ∃ ls, ls.Sublist (levels.level j) ∧ ts = us ++ ls := by
  simp only [Levels.gatherTarget, Option.ite_none_left_eq_some, Option.some.injEq] at h
  exact ⟨_, List.filter_sublist, h.2.symm⟩

theorem push (hp : t ∈ levels.level i) (h : Source.push cfg levels i t = some inputs) :
    Drawn levels inputs := by
  unfold Source.push at h
  split at h
  case isTrue h₀ =>
    rw [Levels.pushOldest, Option.ite_none_left_eq_some] at h
    obtain ⟨ls, hl, rfl⟩ := gatherTarget_eq h.2
    apply oldestFirst Nat.one_pos _ hl
    have hs := (take_sublist (max cfg.l1FileCountTrigger 1) (Levels.own (levels.level 0)).reverse).reverse
    rw [reverse_reverse] at hs
    exact hs.trans List.filter_sublist
  obtain ⟨ls, hl, rfl⟩ := gatherTarget_eq h
  exact inOrder (Nat.lt_succ_self i) (singleton_sublist.mpr hp) hl

theorem compactInto (hij : i ≤ j) : Drawn levels (levels.compactInto i j) := by
  unfold Levels.compactInto
  dsimp only
  split
  case isTrue => exact one (nil_sublist (levels.level 0))
  split
  case isFalse =>
    rw [if_neg (by simp), append_nil]
    exact one List.filter_sublist
  case isTrue h =>
    split
    case isTrue => exact one (nil_sublist (levels.level 0))
    case isFalse => exact inOrder (Nat.lt_of_le_of_ne hij h.symm) List.filter_sublist List.filter_sublist

theorem of_inputs {source : Source K} (h : source.inputs cfg levels = some inputs) : Drawn levels inputs := by
  cases source
  case capacity i pick =>
    obtain ⟨t, ht, h⟩ := Option.bind_eq_some_iff.mp h
    exact push (Levels.mem_of_own ht) h
  case table i pick =>
    obtain ⟨t, ht, h⟩ := Option.bind_eq_some_iff.mp h
    split at h
    case isFalse => exact push (Levels.mem_of_own ht) h
    rw [Option.some.injEq, Levels.rewriteTable] at h
    subst h
    split
    case isTrue => exact one List.filter_sublist
    case isFalse => exact one (singleton_sublist.mpr (Levels.mem_of_own ht))
  case sweep i =>
    rw [Source.inputs, Option.ite_none_left_eq_some, Option.some.injEq] at h
    exact h.2 ▸ compactInto (Nat.le_succ i)
  case sweepBottom =>
    rw [Source.inputs, Option.some.injEq] at h
    exact h ▸ compactInto le_rfl
  case rangePush i lower upper =>
    rw [Source.inputs, Option.ite_none_left_eq_some, Levels.rangePush, Option.ite_none_left_eq_some] at h
    obtain ⟨ls, hl, rfl⟩ := gatherTarget_eq h.2.2
    exact inOrder (Nat.lt_succ_self i) rangeInputs hl
  case rangeRewrite floor lower upper =>
    rw [Source.inputs, Option.some.injEq] at h
    exact h ▸ rangeRewrite

end Drawn

end OndaDb

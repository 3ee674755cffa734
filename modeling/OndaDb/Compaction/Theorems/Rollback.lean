import OndaDb.Compaction.Rollback
import OndaDb.Compaction.Theorems.Drawn
import OndaDb.Lib.Sort

namespace OndaDb

open List

variable {K V : Type} [LinearOrder K] {levels : Levels K V} {t : Table K V} {ts : List (Table K V)}

namespace Levels

omit [LinearOrder K] in
theorem level_append_replicate : (levels ++ replicate n [] : Levels K V).level i = levels.level i := by
  simp only [level, getElem?_append, getElem?_replicate]
  split
  case isTrue => rfl
  case isFalse h =>
    rw [getElem?_eq_none (Nat.le_of_not_lt h)]
    split <;> rfl

theorem level_reinsert :
    (levels.reinsert i t).level j = if j = i then putBack i (levels.level i) t else levels.level j := by
  simp only [reinsert, level, getElem?_modify]
  split
  case isTrue h =>
    subst h
    have hlt : i < (levels ++ replicate (i + 1 - levels.length) [] : Levels K V).length := by
      simp only [length_append, length_replicate]
      omega
    have he : (levels ++ replicate (i + 1 - levels.length) [] : Levels K V)[i]? = some (levels.level i) := by
      rw [← level_append_replicate (n := i + 1 - levels.length), level, getElem?_eq_getElem hlt]
      rfl
    simp [he, level]
  case isFalse h =>
    rw [if_neg (Ne.symm h), Option.map_eq_map, Option.map_id']
    exact level_append_replicate

theorem level_foldl_reinsert {levelOf : Table K V → Nat} :
    (ts.foldl (fun levels t => levels.reinsert (levelOf t) t) levels).level i =
      (ts.filter (levelOf · = i)).foldl (putBack i) (levels.level i) := by
  induction ts generalizing levels
  case nil => rfl
  case cons t ts hi =>
    rw [foldl_cons, hi, level_reinsert, filter_cons]
    by_cases h : levelOf t = i
    case pos => simp [h]
    case neg => simp [h, Ne.symm h]

omit [LinearOrder K] in
theorem level_map (hf : f [] = []) :
    level (levels.map f) i = f (levels.level i) := by
  simp only [level, getElem?_map]
  cases levels[i]? <;> simp [hf]

end Levels

theorem putBack_of_new (h : ∀ u ∈ ts, u.id ≠ t.id) : putBack i ts t =
    if 0 < i then (ts ++ [t]).insertionSort fun a b => a.minKey ≤ b.minKey else ts ++ [t] := by
  rw [putBack, if_neg]
  simpa using h

omit [LinearOrder K] in
theorem ne_of_nodup_append (h : (ts ++ u :: us).map Table.id |>.Nodup) : ∀ t ∈ ts, t.id ≠ u.id := by
  intro t ht
  rw [map_append, map_cons, nodup_append] at h
  exact h.2.2 t.id (mem_map_of_mem ht) u.id (mem_cons_self ..)

theorem foldl_putBack_zero (h : (ts ++ us).map Table.id |>.Nodup) :
    us.foldl (putBack 0) ts = ts ++ us := by
  induction us generalizing ts
  case nil => simp
  case cons u us hi =>
    rw [foldl_cons, putBack_of_new (ne_of_nodup_append h), if_neg (Nat.lt_irrefl 0),
      hi (by simpa using h), append_assoc, singleton_append]

theorem foldl_putBack_pos (hi : 0 < i) (h : (ts ++ us).map Table.id |>.Nodup) (hu : us ≠ []) :
    us.foldl (putBack i) ts = (ts ++ us).insertionSort fun a b => a.minKey ≤ b.minKey := by
  induction us generalizing ts
  case nil => exact absurd rfl hu
  case cons u us ih =>
    rw [foldl_cons, putBack_of_new (ne_of_nodup_append h), if_pos hi]
    cases us
    case nil => rfl
    case cons v us =>
      have hp : (((ts ++ [u]).insertionSort fun a b => a.minKey ≤ b.minKey) ++ v :: us).map Table.id |>.Nodup := by
        have hperm := (perm_insertionSort (fun a b : Table K V => a.minKey ≤ b.minKey) (ts ++ [u])).append_right (v :: us)
        exact (hperm.map Table.id).nodup_iff.mpr (by simpa using h)
      rw [ih hp (by simp), insertionSort_insertionSort_append, append_assoc, singleton_append]

namespace Job

variable {job : Job K V}

def isInput (job : Job K V) (t : Table K V) : Bool :=
  t.id ∈ job.inputs.map Table.id

omit [LinearOrder K] in
theorem retained_eq : job.retained ts = ts.filter (!job.isInput ·) := by
  apply filter_congr
  intro t _
  rw [isInput, ← decide_not]

theorem level_install : Levels.level (job.install levels outs) i =
    if i = job.target
    then (job.retained (levels.level i) ++ outs).insertionSort fun a b => a.minKey ≤ b.minKey
    else job.retained (levels.level i) := by
  rw [Levels.level, install, getElem?_map]
  by_cases hi : i < max (job.target + 1) levels.length
  case pos =>
    rw [getElem?_range hi]
    rfl
  have hl : levels.level i = [] := by
    rw [Levels.level, getElem?_eq_none (by omega)]
    rfl
  rw [getElem?_eq_none (by simpa using Nat.le_of_not_lt hi), if_neg (by omega), hl]
  rfl

theorem level_removed (hf : ∀ t ∈ levels.level i, t.id ∉ outs.map Table.id) :
    Levels.level ((job.install levels outs).map fun ts => ts.filter fun t => t.id ∉ outs.map Table.id) i =
      if i = job.target
      then (job.retained (levels.level i)).insertionSort fun a b => a.minKey ≤ b.minKey
      else job.retained (levels.level i) := by
  have hr : (job.retained (levels.level i)).filter (fun t => t.id ∉ outs.map Table.id) =
      job.retained (levels.level i) := by
    apply filter_eq_self.mpr
    exact fun t ht => decide_eq_true (hf t (mem_of_mem_filter ht))
  have ho : outs.filter (fun t => t.id ∉ outs.map Table.id) = [] := by
    apply filter_eq_nil_iff.mpr
    simp +contextual [mem_map_of_mem]
  rw [Levels.level_map rfl, level_install]
  split
  case isTrue => rw [filter_insertionSort, filter_append, hr, ho, append_nil]
  case isFalse => exact hr

end Job

namespace Job

variable {job : Job K V} {levelOf : Table K V → Nat} {outs : List (Table K V)}

def Touches (job : Job K V) (levels : Levels K V) (i : Nat) : Prop :=
  i = job.target ∨ ∃ t ∈ levels.level i, job.isInput t

structure Restorable (job : Job K V) (levels : Levels K V) : Prop where
  newestFirst : job.inputs.filter (·.id ∈ (levels.level 0).map Table.id) =
    (levels.level 0).filter job.isInput
  oldest : (levels.level 0).Pairwise fun a b => job.isInput a → job.isInput b
  -- A job that writes into level 0 leaves only files there that are sorted.
  sorted : job.target = 0 → (job.retained (levels.level 0)).Pairwise fun a b => a.minKey ≤ b.minKey
  -- The levels below are sorted, with the inputs last among the tables that have one first key.
  deeper : ∀ i, 0 < i → job.Touches levels i → (levels.level i).Pairwise fun a b =>
    a.minKey ≤ b.minKey ∧ (b.minKey ≤ a.minKey → job.isInput a → job.isInput b)

section

variable (hid : (levels.flatten.map Table.id).Nodup) (hl : ∀ i, ∀ t ∈ levels.level i, levelOf t = i)
  (hf : ∀ i, ∀ t ∈ levels.level i, t.id ∉ outs.map Table.id) (d : Drawn levels job.inputs)
include hid hl hf d

omit hid hl d in
theorem level_rollback : ((job.install levels outs).rollback levelOf job.inputs outs).level i =
    (job.inputs.filter (levelOf · = i)).foldl (putBack i)
      (if i = job.target
        then (job.retained (levels.level i)).insertionSort fun a b => a.minKey ≤ b.minKey
        else job.retained (levels.level i)) := by
  rw [Levels.rollback, Levels.level_foldl_reinsert, level_removed (hf i)]

omit hf [LinearOrder K] in
theorem ids_nodup_of_perm (hp : ts.Perm (job.retained (levels.level i))) :
    ((ts ++ job.inputs.filter (levelOf · = i)).map Table.id).Nodup := by
  have hts : (ts.map Table.id).Nodup :=
    (hp.map _).nodup_iff.mpr ((Levels.ids_nodup hid i).sublist (filter_sublist.map _))
  have hins : ((job.inputs.filter (levelOf · = i)).map Table.id).Nodup :=
    (d.ids_nodup hid hl).sublist (filter_sublist.map _)
  rw [map_append, nodup_append]
  refine ⟨hts, hins, ?_⟩
  intro a ha b hb hab
  obtain ⟨t, ht, rfl⟩ := mem_map.mp ha
  have hnot := of_decide_eq_true (mem_filter.mp (hp.subset ht)).2
  exact hnot (hab ▸ (filter_sublist.map _).subset hb)

theorem level_rollback_zero :
    ((job.install levels outs).rollback levelOf job.inputs outs).level 0 =
      (if 0 = job.target
        then (job.retained (levels.level 0)).insertionSort fun a b => a.minKey ≤ b.minKey
        else job.retained (levels.level 0)) ++ job.inputs.filter (levelOf · = 0) := by
  rw [level_rollback hf]
  split
  case isTrue => exact foldl_putBack_zero (ids_nodup_of_perm hid hl d (perm_insertionSort ..))
  case isFalse => exact foldl_putBack_zero (ids_nodup_of_perm hid hl d (.refl _))

theorem level_rollback_pos (hi : 0 < i) (ht : job.Touches levels i) :
    ((job.install levels outs).rollback levelOf job.inputs outs).level i =
      ((levels.level i).filter (!job.isInput ·) ++ (levels.level i).filter job.isInput).insertionSort
        fun a b => a.minKey ≤ b.minKey := by
  have he : job.inputs.filter (levelOf · = i) = (levels.level i).filter job.isInput := d.filter_eq hid hl hi
  rw [level_rollback hf, ← he, ← retained_eq]
  by_cases hn : job.inputs.filter (levelOf · = i) = []
  case pos =>
    -- Without inputs here it is the job's target, and the installation sorted it.
    have htarget : i = job.target := by
      apply ht.resolve_right
      rintro ⟨t, ht, hin⟩
      rw [hn] at he
      exact filter_eq_nil_iff.mp he.symm t ht hin
    rw [hn, if_pos htarget, append_nil, foldl_nil]
  split
  case isTrue =>
    rw [foldl_putBack_pos hi (ids_nodup_of_perm hid hl d (perm_insertionSort ..)) hn,
      insertionSort_insertionSort_append]
  case isFalse => exact foldl_putBack_pos hi (ids_nodup_of_perm hid hl d (.refl _)) hn

theorem level_rollback_untouched (hi : 0 < i) (ht : ¬job.Touches levels i) :
    ((job.install levels outs).rollback levelOf job.inputs outs).level i = levels.level i := by
  have hnot : ∀ t ∈ levels.level i, ¬job.isInput t := fun t h hin => ht (.inr ⟨t, h, hin⟩)
  have he : job.inputs.filter (levelOf · = i) = (levels.level i).filter job.isInput := d.filter_eq hid hl hi
  rw [level_rollback hf, he, filter_eq_nil_iff.mpr hnot, if_neg fun h => ht (.inl h), retained_eq]
  exact filter_eq_self.mpr fun t h => by simpa using hnot t h

omit hf [LinearOrder K] in
theorem filter_levelOf_zero : job.inputs.filter (levelOf · = 0) =
    job.inputs.filter (·.id ∈ (levels.level 0).map Table.id) := by
  apply filter_congr
  intro t ht
  obtain ⟨i, hi⟩ := d.mem_level ht
  rw [decide_eq_decide, hl i t hi]
  constructor
  case mp => exact fun h => mem_map_of_mem (h ▸ hi)
  case mpr =>
    intro h
    obtain ⟨u, hu, he⟩ := mem_map.mp h
    have htu := Levels.eq_of_id hid hu hi he
    exact (hl i t hi).symm.trans (hl 0 t (htu ▸ hu))

omit hf hid hl d [LinearOrder K] in
theorem isInput_of_mem (ht : t ∈ job.inputs) : job.isInput t :=
  decide_eq_true (mem_map_of_mem ht)

theorem level_rollback_zero_iff :
    ((job.install levels outs).rollback levelOf job.inputs outs).level 0 = levels.level 0 ↔
      job.inputs.filter (·.id ∈ (levels.level 0).map Table.id) = (levels.level 0).filter job.isInput ∧
      (levels.level 0).Pairwise (fun a b => job.isInput a → job.isInput b) ∧
      (job.target = 0 → (job.retained (levels.level 0)).Pairwise fun a b => a.minKey ≤ b.minKey) := by
  rw [level_rollback_zero hid hl hf d, filter_levelOf_zero hid hl d]
  have hins : ∀ t ∈ job.inputs.filter (·.id ∈ (levels.level 0).map Table.id), job.isInput t :=
    fun t ht => isInput_of_mem (mem_of_mem_filter ht)
  have hret : ∀ t ∈ job.retained (levels.level 0), ¬job.isInput t := by
    intro t ht
    simpa [isInput] using of_decide_eq_true (mem_filter.mp ht).2
  by_cases h0 : 0 = job.target
  case neg =>
    rw [if_neg h0, append_eq_iff_filter hret hins, ← retained_eq]
    simp [Ne.symm h0]
  rw [if_pos h0, append_eq_iff_filter (fun t ht => hret t ((mem_insertionSort _).mp ht)) hins,
    ← retained_eq]
  have hs : (job.retained (levels.level 0)).insertionSort (fun a b => a.minKey ≤ b.minKey) =
      job.retained (levels.level 0) ↔ (job.retained (levels.level 0)).Pairwise fun a b => a.minKey ≤ b.minKey :=
    ⟨fun h => h ▸ pairwise_insertionSort _ _, List.Pairwise.insertionSort_eq⟩
  rw [hs, ← h0]
  tauto

end

omit [LinearOrder K] in
theorem withIds_ids (hu : u ∈ withIds n ts) : n ≤ u.id := by
  induction ts generalizing n
  case nil => cases hu
  case cons t ts hi =>
    rcases mem_cons.mp hu with rfl | hu
    · exact le_rfl
    · exact Nat.le_of_succ_le (hi hu)

variable [Inhabited K] [Inhabited V]

-- A rollback right after the installation of a job restores every level if and only if the job took
-- the oldest files of level 0, listed them newest first, and the levels below are sorted.
theorem rollback_install_iff (cfg : Config K V) (levels : Levels K V) (source : Source K)
    (oldestSnapshot : Nat) (now : Int) (granted nextId : Nat) (levelOf : Table K V → Nat)
    (hid : (levels.flatten.map Table.id).Nodup) (hnext : ∀ t ∈ levels.flatten, t.id < nextId)
    (hl : ∀ i, ∀ t ∈ levels.level i, levelOf t = i)
    (hj : prepare cfg levels source oldestSnapshot now granted = some job) :
    (∀ i, ((job.install levels (job.outputs nextId)).rollback levelOf job.inputs
      (job.outputs nextId)).level i = levels.level i) ↔ job.Restorable levels := by
  have d : Drawn levels job.inputs := by
    obtain ⟨inputs, hin, hj⟩ := Option.bind_eq_some_iff.mp hj
    obtain ⟨hull, _, hj⟩ := Option.bind_eq_some_iff.mp hj
    cases hj
    exact .of_inputs hin
  have hf : ∀ i, ∀ t ∈ levels.level i, t.id ∉ (job.outputs nextId).map Table.id := by
    intro i t ht hm
    obtain ⟨u, hu, he⟩ := mem_map.mp hm
    have := hnext t ((Levels.level_sublist_flatten i).subset ht)
    exact absurd (withIds_ids hu) (by omega)
  constructor
  case mp =>
    intro h
    obtain ⟨h₁, h₂, h₃⟩ := (level_rollback_zero_iff hid hl hf d).mp (h 0)
    refine ⟨h₁, h₂, h₃, fun i hi ht => ?_⟩
    rw [← insertionSort_filter_append_iff (Levels.ids_nodup hid i).of_map]
    exact (level_rollback_pos hid hl hf d hi ht).symm.trans (h i)
  case mpr =>
    intro h i
    by_cases hi : 0 < i
    case neg =>
      rw [Nat.eq_zero_of_not_pos hi]
      exact (level_rollback_zero_iff hid hl hf d).mpr ⟨h.newestFirst, h.oldest, h.sorted⟩
    case pos =>
      by_cases ht : job.Touches levels i
      case neg => exact level_rollback_untouched hid hl hf d hi ht
      case pos =>
        rw [level_rollback_pos hid hl hf d hi ht]
        exact insertionSort_filter_append (h.deeper i hi ht)

def pushingConfig (trigger : Nat) : Config Nat Nat where
  l1FileCountTrigger := trigger
  maxSubcompactions := 1
  targetFileSize := 1000
  bytewise := true
  partitioner := ⟨fun _ => none, fun _ => none⟩
  filter := none
  mergeOperator := none
  enableMergeFolding := false
  length := fun _ _ => 1
  bytes := fun _ => 1

def fileOf (id key : Nat) : Table Nat Nat where
  id := id
  entries := [⟨key, id, 0, .put, 0⟩]
  fragments := []
  minKey := key
  maxKey := key
  partition := none
  tier := none
  foreign := false

theorem rollback_install_oldest :
    let levels : Levels Nat Nat := [[fileOf 4 7, fileOf 3 7], [fileOf 1 2, fileOf 2 7]]
    ∃ job, prepare (pushingConfig 1) levels (.capacity 0 0) 0 0 0 = some job ∧
      ∀ i, ((job.install levels (job.outputs 5)).rollback (fun t => if t.id < 3 then 1 else 0) job.inputs
        (job.outputs 5)).level i = levels.level i := by
  intro levels
  have hsome : (prepare (pushingConfig 1) levels (.capacity 0 0) 0 0 0).isSome := by decide +kernel
  have hmap : (prepare (pushingConfig 1) levels (.capacity 0 0) 0 0 0).map (fun job =>
      (job.target, job.inputs)) = some (1, [fileOf 3 7, fileOf 2 7]) := by decide +kernel
  obtain ⟨job, hj⟩ := Option.isSome_iff_exists.mp hsome
  rw [hj, Option.map_some, Option.some.injEq, Prod.mk.injEq] at hmap
  obtain ⟨ht, hin⟩ := hmap
  have hisInput : job.isInput = fun t => t.id = 3 || t.id = 2 := by
    funext t
    simp [isInput, hin, fileOf]
  have hbelow : ∀ i, levels.level (i + 2) = [] := fun _ => rfl
  refine ⟨job, hj, (rollback_install_iff _ levels _ 0 0 0 5 _ ?_ ?_ ?_ hj).mpr ⟨?_, ?_, ?_, ?_⟩⟩
  · decide
  · decide
  · rintro (_ | _ | i) t hm
    · revert t
      decide
    · revert t
      decide
    · simp [hbelow] at hm
  · rw [hin, hisInput]
    decide
  · rw [hisInput]
    decide
  · exact fun h => absurd (ht.symm.trans h) (by decide)
  · rintro (_ | _ | i) hi _
    · cases hi
    · rw [hisInput]
      decide
    · rw [hbelow]
      exact .nil

-- Two files are taken oldest first, and come back the wrong way round: the newer one is then read as
-- if it were the older one.
theorem rollback_reverses_level0 :
    let levels : Levels Nat Nat := [[fileOf 3 7, fileOf 2 7, fileOf 1 7]]
    (prepare (pushingConfig 2) levels (.capacity 0 0) 0 0 0).map (fun job =>
      (((job.install levels (job.outputs 4)).rollback (fun _ => 0) job.inputs
        (job.outputs 4)).level 0).map Table.id) = some [3, 1, 2] := by
  decide +kernel

end Job

end OndaDb

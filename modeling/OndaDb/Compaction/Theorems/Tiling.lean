import OndaDb.Compaction.Theorems.Tables

namespace OndaDb

open List

section

variable {K V : Type} [LinearOrder K] {lower upper : Option K} {t : Table K V} {ts : List (Table K V)}
  {frags : List (Fragment K)}

-- The outputs of a span with the interval each owns: from its first key to the first key of the next
-- one. The first is extended down to `lower` and the last up to `upper`.
def ownedIntervals (upper : Option K) : Option K → List (Table K V) → List (Table K V × Option K × Option K)
  | _,     [] => []
  | lower, [t] => [(t, lower, upper)]
  | lower, t :: u :: ts => (t, lower, some u.minKey) :: ownedIntervals upper (some u.minKey) (u :: ts)

instance {k : K} : Decidable (InInterval lower upper k) :=
  inferInstanceAs (Decidable (_ ∧ _))

theorem head_le_minKey (hs : ((t :: ts).map Table.minKey).Pairwise (· ≤ ·)) :
    ∀ u ∈ t :: ts, t.minKey ≤ u.minKey := by
  intro u hu
  rcases mem_cons.mp hu with rfl | hu
  · exact le_rfl
  · exact (pairwise_cons.mp hs).1 u.minKey (mem_map_of_mem hu)

omit [LinearOrder K] in
theorem mem_of_ownedIntervals (hi : i ∈ ownedIntervals upper lower ts) : i.1 ∈ ts := by
  induction ts generalizing lower
  case nil => cases hi
  case cons t ts ih =>
    cases ts
    case nil => rw [mem_singleton.mp hi]; exact mem_singleton_self t
    case cons u ts =>
      rcases mem_cons.mp hi with rfl | hi
      · exact mem_cons_self ..
      · exact mem_cons_of_mem _ (ih hi)

omit [LinearOrder K] in
theorem ownedIntervals_lower (hi : i ∈ ownedIntervals upper (some t.minKey) (t :: ts)) :
    i.2.1 = some i.1.minKey := by
  induction ts generalizing t
  case nil => rw [mem_singleton.mp hi]
  case cons u ts ih =>
    rcases mem_cons.mp hi with rfl | hi
    · rfl
    · exact ih hi

theorem countP_ownedIntervals (hne : ts ≠ []) (hs : (ts.map Table.minKey).Pairwise (· ≤ ·))
    (hk : InInterval lower upper k) :
    (ownedIntervals upper lower ts).countP (fun i => InInterval i.2.1 i.2.2 k) = 1 := by
  induction ts generalizing lower
  case nil => exact absurd rfl hne
  case cons t ts ih =>
    cases ts
    case nil => simp [ownedIntervals, hk]
    case cons u ts =>
      obtain ⟨_, hs⟩ := pairwise_cons.mp hs
      rw [ownedIntervals, countP_cons]
      by_cases hku : k < u.minKey
      case pos =>
        have hrest : (ownedIntervals upper (some u.minKey) (u :: ts)).countP
            (fun i => InInterval i.2.1 i.2.2 k) = 0 := by
          rw [countP_eq_zero]
          intro i hi hin
          have hle := head_le_minKey hs i.1 (mem_of_ownedIntervals hi)
          exact absurd ((of_decide_eq_true hin).1 _ (ownedIntervals_lower hi)) (not_le.mpr (hku.trans_le hle))
        have hfirst : InInterval lower (some u.minKey) k := ⟨hk.1, by simpa using hku⟩
        simp [hrest, hfirst]
      have hfirst : ¬InInterval lower (some u.minKey) k := fun h => hku (h.2 _ rfl)
      rw [ih (by simp) hs ⟨by simpa using hku, hk.2⟩]
      simp [hfirst]

theorem exists_clipFragments :
    (∃ f ∈ clipFragments frags lower upper, f.Contains k ∧ f.seqs = ss) ↔
      InInterval lower upper k ∧ ∃ f ∈ frags, f.Contains k ∧ f.seqs = ss := by
  constructor
  case mp =>
    rintro ⟨g, hg, hk, hs⟩
    obtain ⟨f, hf, hg⟩ := mem_filterMap.mp hg
    obtain ⟨_, rfl⟩ := Fragment.mem_clip.mp hg
    obtain ⟨h₁, h₂⟩ := clipLow_le_iff.mp hk.1
    obtain ⟨h₃, h₄⟩ := lt_clipHigh_iff.mp hk.2
    exact ⟨⟨h₂, h₄⟩, f, hf, ⟨h₁, h₃⟩, hs⟩
  case mpr =>
    rintro ⟨hi, f, hf, hk, hs⟩
    have hk' : clipLow lower f.start ≤ k ∧ k < clipHigh upper f.stop :=
      ⟨clipLow_le_iff.mpr ⟨hk.1, hi.1⟩, lt_clipHigh_iff.mpr ⟨hk.2, hi.2⟩⟩
    have hg := Fragment.mem_clip.mpr ⟨hk'.1.trans_lt hk'.2, rfl⟩
    exact ⟨_, mem_filterMap.mpr ⟨f, hf, hg⟩, hk', hs⟩

theorem bounds_of_mem_clipFragments (hg : g ∈ clipFragments frags lower upper) :
    (∀ l ∈ lower, l ≤ g.start) ∧ ∀ u ∈ upper, g.stop ≤ u := by
  obtain ⟨f, _, hg⟩ := mem_filterMap.mp hg
  obtain ⟨_, rfl⟩ := Fragment.mem_clip.mp hg
  refine ⟨(clipLow_le_iff.mp le_rfl).2, fun u hu => ?_⟩
  by_contra hlt
  exact absurd ((lt_clipHigh_iff.mp (not_le.mp hlt)).2 u hu) (lt_irrefl u)

def Tiled (frags : List (Fragment K)) (upper lower : Option K) (ts : List (Table K V)) : Prop :=
  ∀ i ∈ ownedIntervals upper lower ts, i.1.fragments = clipFragments frags i.2.1 i.2.2

omit [LinearOrder K] in
theorem mem_ownedIntervals (ht : t ∈ ts) : ∃ i ∈ ownedIntervals upper lower ts, i.1 = t := by
  induction ts generalizing lower
  case nil => cases ht
  case cons t ts ih =>
    cases ts
    case nil => exact ⟨_, mem_singleton.mpr rfl, (mem_singleton.mp ht).symm⟩
    case cons u ts =>
      rcases mem_cons.mp ht with rfl | ht
      · exact ⟨_, mem_cons_self .., rfl⟩
      · obtain ⟨i, hi, he⟩ := ih ht
        exact ⟨i, mem_cons_of_mem _ hi, he⟩

-- The fragments of a table end at or before the first key of a later one, whose fragments do not
-- start before it.
theorem Tiled.fragments_apart (h : Tiled frags upper lower ts) (hs : (ts.map Table.minKey).Pairwise (· ≤ ·)) :
    ts.Pairwise fun t u => (∀ f ∈ t.fragments, f.stop ≤ u.minKey) ∧ ∀ g ∈ u.fragments, u.minKey ≤ g.start := by
  induction ts generalizing lower
  case nil => exact .nil
  case cons t ts ih =>
    cases ts
    case nil => exact pairwise_singleton _ _
    case cons u ts =>
      obtain ⟨_, hs⟩ := pairwise_cons.mp hs
      have hrest : Tiled frags upper (some u.minKey) (u :: ts) := fun i hi => h i (mem_cons_of_mem _ hi)
      refine pairwise_cons.mpr ⟨fun v hv => ⟨fun f hf => ?_, fun g hg => ?_⟩, ih hrest hs⟩
      · rw [h _ (mem_cons_self ..)] at hf
        exact ((bounds_of_mem_clipFragments hf).2 _ rfl).trans (head_le_minKey hs v hv)
      · have hv : ∃ i ∈ ownedIntervals upper (some u.minKey) (u :: ts), i.1 = v := mem_ownedIntervals hv
        obtain ⟨i, hi, rfl⟩ := hv
        rw [hrest i hi] at hg
        exact (bounds_of_mem_clipFragments hg).1 _ (ownedIntervals_lower hi)

end

namespace OutputBuilder

variable {K V : Type} [LinearOrder K] [Inhabited K] {job : FrozenJob K V} {frags : List (Fragment K)}
  {lower upper : Option K} {cs : List (List (Version K V))}

theorem table_minKey (hc : c ≠ []) :
    some (table job frags lower upper c).minKey = c.head?.map Version.key := by
  obtain ⟨v, hv, w, hw, he⟩ := bounds_of_entries (clipFragments frags lower upper) hc
  rw [Option.mem_def.mp hv, Option.map_some, table, he]

theorem tile_tiled (hne : ∀ c ∈ cs, c ≠ []) : Tiled frags upper lower (tile job frags upper lower cs) := by
  induction cs generalizing lower
  case nil => exact nofun
  case cons c cs ih =>
    cases cs
    case nil =>
      intro i hi
      rw [mem_singleton.mp hi]
      rfl
    case cons d cs =>
      have hcut : cutOf upper (d :: cs) = some (table job frags (cutOf upper (d :: cs)) (cutOf upper cs) d).minKey :=
        (table_minKey (hne d (by simp))).symm
      intro i hi
      rcases mem_cons.mp hi with rfl | hi
      · exact congrArg (clipFragments frags lower) hcut
      · rw [← hcut] at hi
        exact ih (fun c hc => hne c (mem_cons_of_mem _ hc)) i hi

theorem tile_sorted (hne : ∀ c ∈ cs, c ≠ []) (h : cs.Pairwise fun c c' => ∀ v ∈ c, ∀ w ∈ c', v.key < w.key) :
    ((tile job frags upper lower cs).map Table.minKey).Pairwise (· ≤ ·) := by
  induction cs generalizing lower
  case nil => exact .nil
  case cons c cs ih =>
    obtain ⟨hc, hcs⟩ := pairwise_cons.mp h
    refine pairwise_cons.mpr ⟨fun m hm => ?_, ih (fun c' hc' => hne c' (mem_cons_of_mem _ hc')) hcs⟩
    obtain ⟨t, ht, rfl⟩ := mem_map.mp hm
    obtain ⟨c', hc', lo, hi, rfl⟩ := mem_tile ht
    obtain ⟨v, hv, _, _, hmin, _⟩ := table_bounds job frags lower (cutOf upper cs) (hne c (by simp))
    obtain ⟨w, hw, _, _, hmin', _⟩ := table_bounds job frags lo hi (hne c' (mem_cons_of_mem _ hc'))
    rw [hmin, hmin']
    exact (hc c' hc' v hv w hw).le

theorem finish_tiled {ws : List (Version K V)} (hs : ws.Pairwise fun v w => v.key ≤ w.key) :
    Tiled frags upper none (ws.foldl (write job) (new frags upper)).finish ∧
    ((ws.foldl (write job) (new frags upper)).finish.map Table.minKey).Pairwise (· ≤ ·) := by
  by_cases hw : ws = []
  case pos =>
    rw [hw, foldl_nil, finish_new job]
    split
    case isTrue => exact ⟨nofun, .nil⟩
    refine ⟨fun i hi => ?_, pairwise_singleton _ _⟩
    rw [mem_singleton.mp hi]
    rfl
  obtain ⟨cs, hcs, he⟩ : ∃ cs, Chunks ws cs ∧ _ = tile job frags upper none cs := finish_foldl_write hw
  rw [he]
  exact ⟨tile_tiled hcs.nonempty, tile_sorted hcs.nonempty (hcs.pairwise hs)⟩

theorem fragments_of_finish_eq_nil {ws : List (Version K V)}
    (h : (ws.foldl (write job) (new frags upper)).finish = []) : frags = [] := by
  by_cases hw : ws = []
  case pos =>
    rw [hw, foldl_nil, finish_new job, ite_eq_left_iff] at h
    by_contra hf
    cases h hf
  obtain ⟨cs, hcs, he⟩ : ∃ cs, Chunks ws cs ∧ _ = tile job frags upper none cs := finish_foldl_write hw
  rw [he] at h
  cases cs
  case nil => exact absurd hcs.flatten.symm hw
  case cons c _ => cases h

-- However the writes are cut, the outputs of a span divide its fragments: each key of the span has
-- one owner, the owner alone covers it and with the stack of the fragment it was cut from, and no
-- two outputs' fragments overlap. A span that writes nothing loses no fragment either.
theorem finish_divides (job : FrozenJob K V) (frags : List (Fragment K)) (upper : Option K)
    (ws : List (Version K V)) (hs : ws.Pairwise fun v w => v.key ≤ w.key) :
    let outputs := (ws.foldl (write job) (new frags upper)).finish
    (outputs = [] → frags = []) ∧
    (∀ k, InInterval none upper k → outputs ≠ [] →
      (ownedIntervals upper none outputs).countP (fun i => InInterval i.2.1 i.2.2 k) = 1) ∧
    (∀ i ∈ ownedIntervals upper none outputs, ∀ k ss,
      (∃ f ∈ i.1.fragments, f.Contains k ∧ f.seqs = ss) ↔
        InInterval i.2.1 i.2.2 k ∧ ∃ f ∈ frags, f.Contains k ∧ f.seqs = ss) ∧
    outputs.Pairwise fun t u => ∀ f ∈ t.fragments, ∀ g ∈ u.fragments, f.stop ≤ g.start := by
  intro outputs
  have ht : Tiled frags upper none outputs ∧ _ := finish_tiled hs
  refine ⟨fragments_of_finish_eq_nil, fun k hk hne => ?_, fun i hi k ss => ?_, ?_⟩
  · exact countP_ownedIntervals hne ht.2 hk
  · rw [ht.1 i hi]
    exact exists_clipFragments
  · exact (ht.1.fragments_apart ht.2).imp fun h f hf g hg => (h.1 f hf).trans (h.2 g hg)

def cuttingJob : FrozenJob Nat Nat where
  bottom := true
  oldestSnapshot := 5
  now := 100
  partitioner := some ⟨fun k => if k < 8 then some "low" else some "high", fun k => some (k / 8)⟩
  filter := none
  mergeFold := none
  ranges := []
  foreignSpans := []
  targetBytes := 2
  length := fun _ _ => 1

-- Of five versions of four keys, three outputs: the fragment over `[2, 12)` is cut at 4 and at 8.
theorem finish_divides_cuts :
    let ws : List (Version Nat Nat) :=
      [⟨3, 9, 0, .put, 0⟩, ⟨3, 7, 0, .put, 0⟩, ⟨4, 9, 0, .put, 0⟩, ⟨8, 9, 0, .put, 0⟩, ⟨9, 9, 0, .put, 0⟩]
    let outputs := (ws.foldl (write cuttingJob) (new [⟨2, 12, [8, 6]⟩] (some 10))).finish
    outputs.map Table.fragments = [[⟨2, 4, [8, 6]⟩], [⟨4, 8, [8, 6]⟩], [⟨8, 10, [8, 6]⟩]] ∧
    (ownedIntervals (some 10) none outputs).countP (fun i => InInterval i.2.1 i.2.2 7) = 1 := by
  intro ws outputs
  have h := finish_divides cuttingJob [⟨2, 12, [8, 6]⟩] (some 10) ws (by decide)
  exact ⟨by decide, h.2.1 7 (by decide) (by decide)⟩

end OutputBuilder

end OndaDb

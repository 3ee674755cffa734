import OndaDb.Compaction.Theorems.Spans
import OndaDb.Compaction.Theorems.Rollback
import OndaDb.Compaction.Theorems.Tiling

namespace OndaDb

variable {K V : Type} [LinearOrder K]

section

variable {fs : List (Fragment K)} {f g : Fragment K}

theorem Fragmented.head_le (h : Fragmented fs) (hf : f ∈ fs.head?) (hg : g ∈ fs) : f.start ≤ g.start := by
  cases fs
  case nil => cases hg
  case cons d fs =>
    cases hf
    rcases List.mem_cons.mp hg with rfl | hg
    · exact le_rfl
    · exact (h.wf _ (List.mem_cons_self ..)).nonempty.le.trans ((List.pairwise_cons.mp h.sorted).1 g hg)

theorem Fragmented.le_getLast (h : Fragmented fs) (hf : f ∈ fs.getLast?) (hg : g ∈ fs) : g.stop ≤ f.stop := by
  obtain ⟨gs, rfl⟩ := List.getLast?_eq_some_iff.mp hf
  rcases List.mem_append.mp hg with hg | hg
  · have hle := (List.pairwise_append.mp h.sorted).2.2 g hg f (List.mem_singleton_self f)
    exact hle.trans (h.wf f (by simp)).nonempty.le
  · rw [List.mem_singleton.mp hg]

end

namespace Table

variable {t : Table K V} {f : Fragment K}

theorem spanMin_le_minKey : t.spanMin ≤ t.minKey := by
  unfold spanMin
  split
  case h_1 => split <;> simp_all [le_of_lt]
  case h_2 => exact le_rfl

theorem maxKey_le_spanMax : t.maxKey ≤ t.spanMax := by
  unfold spanMax
  split
  case h_1 => split <;> simp_all [le_of_lt]
  case h_2 => exact le_rfl

theorem spanMin_cases (t : Table K V) : t.spanMin = t.minKey ∨ ∃ f ∈ t.fragments, t.spanMin = f.start := by
  unfold spanMin
  split
  case h_1 k hk =>
    obtain ⟨f, hf, rfl⟩ := Option.map_eq_some_iff.mp hk
    split
    case isTrue => exact .inr ⟨f, List.mem_of_head? hf, rfl⟩
    case isFalse => exact .inl rfl
  case h_2 => exact .inl rfl

theorem spanMax_cases (t : Table K V) : t.spanMax = t.maxKey ∨ ∃ f ∈ t.fragments, t.spanMax = f.stop := by
  unfold spanMax
  split
  case h_1 k hk =>
    obtain ⟨f, hf, rfl⟩ := Option.map_eq_some_iff.mp hk
    split
    case isTrue => exact .inr ⟨f, List.mem_of_getLast? hf, rfl⟩
    case isFalse => exact .inl rfl
  case h_2 => exact .inl rfl

theorem spanMin_le_start (h : Fragmented t.fragments) (hf : f ∈ t.fragments) : t.spanMin ≤ f.start := by
  have hne := List.ne_nil_of_mem hf
  have hhead : t.fragments.head? = some _ := List.head?_eq_some_head hne
  have hk : (summarize t.fragments).minKey = some (t.fragments.head hne).start := by simp [summarize, hhead]
  have hle := h.head_le hhead hf
  rw [spanMin, hk]
  dsimp only
  split
  case isTrue => exact hle
  case isFalse hlt => exact (not_lt.mp hlt).trans hle

theorem stop_le_spanMax (h : Fragmented t.fragments) (hf : f ∈ t.fragments) : f.stop ≤ t.spanMax := by
  have hne := List.ne_nil_of_mem hf
  have hlast : t.fragments.getLast? = some _ := List.getLast?_eq_some_getLast hne
  have hk : (summarize t.fragments).maxKey = some (t.fragments.getLast hne).stop := by simp [summarize, hlast]
  have hle := h.le_getLast hlast hf
  rw [spanMax, hk]
  dsimp only
  split
  case isTrue => exact hle
  case isFalse hlt => exact hle.trans (not_lt.mp hlt)

-- The span of `a` ends at or below that of `b`. They touch only where a fragment of `a` ends, which
-- excludes the key it ends at.
@[mk_iff]
structure SpanBefore (a b : Table K V) : Prop where
  span : a.spanMax ≤ b.spanMin
  entries : ∀ v ∈ a.entries, v.key < b.spanMin

instance : DecidableRel (SpanBefore (K := K) (V := V)) := fun a b =>
  decidable_of_iff' _ (a.spanBefore_iff b)

def SpanApart (a b : Table K V) : Prop :=
  a.SpanBefore b ∨ b.SpanBefore a

instance : DecidableRel (SpanApart (K := K) (V := V)) := fun a b =>
  inferInstanceAs (Decidable (a.SpanBefore b ∨ b.SpanBefore a))

def SpanDisjoint (ts : List (Table K V)) : Prop :=
  ts.Pairwise SpanApart

instance {ts : List (Table K V)} : Decidable (SpanDisjoint ts) :=
  inferInstanceAs (Decidable (ts.Pairwise SpanApart))

instance : Std.Symm (SpanApart (K := K) (V := V)) where
  symm _ _ := Or.symm

theorem spanBefore_of_lt {a b : Table K V} (ha : a.Valid) (h : a.spanMax < b.spanMin) : a.SpanBefore b :=
  ⟨h.le, fun _ hv => ((ha.le_maxKey hv).trans maxKey_le_spanMax).trans_lt h⟩

end Table

section outputs

variable [Inhabited K] [Inhabited V] {job : FrozenJob K V} {inputs : List (Table K V)} {lower upper : KeyBound K}
  {o : Table K V}

theorem mem_spanVersions (ho : o ∈ runSpan job inputs lower upper) (hv : v ∈ o.entries) :
    v ∈ spanVersions job inputs lower upper := by
  rw [← runSpan_versions]
  exact List.mem_flatMap.mpr ⟨o, ho, hv⟩

theorem exists_retained_of_mem (ho : o ∈ runSpan job inputs lower upper) (hg : g ∈ o.fragments) :
    ∃ f ∈ job.retained lower upper, f.start ≤ g.start ∧ g.stop ≤ f.stop := by
  obtain ⟨lo, hi, he⟩ := fragments_runSpan ho
  obtain ⟨f, hf, hg⟩ := List.mem_filterMap.mp (he ▸ hg)
  obtain ⟨_, rfl⟩ := Fragment.mem_clip.mp hg
  exact ⟨f, hf, le_clipLow, clipHigh_le⟩

theorem runSpan_spanMin (ho : o ∈ runSpan job inputs lower upper) :
    (∃ v ∈ spanVersions job inputs lower upper, o.spanMin = v.key) ∨
      ∃ f ∈ job.retained lower upper, f.start ≤ o.spanMin := by
  rcases o.spanMin_cases with h | ⟨g, hg, h⟩
  · rcases runSpan_bounds ho with ⟨v, hv, _, _, hmin, _⟩ | ⟨_, f, hf, _, _, hmin, _⟩
    · exact .inl ⟨v, hv, h.trans hmin⟩
    · exact .inr ⟨f, hf, (h.trans hmin).ge⟩
  · obtain ⟨f, hf, hle, _⟩ := exists_retained_of_mem ho hg
    exact .inr ⟨f, hf, h ▸ hle⟩

theorem runSpan_spanMax (ho : o ∈ runSpan job inputs lower upper) :
    (∃ v ∈ spanVersions job inputs lower upper, o.spanMax = v.key) ∨
      ∃ f ∈ job.retained lower upper, o.spanMax ≤ f.stop := by
  rcases o.spanMax_cases with h | ⟨g, hg, h⟩
  · rcases runSpan_bounds ho with ⟨_, _, w, hw, _, hmax⟩ | ⟨_, _, _, f, hf, _, hmax⟩
    · exact .inl ⟨w, hw, h.trans hmax⟩
    · exact .inr ⟨f, hf, (h.trans hmax).le⟩
  · obtain ⟨f, hf, _, hle⟩ := exists_retained_of_mem ho hg
    exact .inr ⟨f, hf, h ▸ hle⟩

variable (hi : ∀ t ∈ inputs, t.Valid) (hr : job.ranges = collectInputRanges inputs)
include hi

omit [Inhabited K] in
theorem exists_input_entry (hv : v ∈ spanVersions job inputs lower upper) :
    ∃ a ∈ inputs, ∃ w ∈ a.entries, v.key = w.key := by
  obtain ⟨w, hw, _, hk, _⟩ := spanVersions_source hi hv
  obtain ⟨a, ha, hw⟩ := List.mem_flatMap.mp hw
  exact ⟨a, ha, w, hw, hk⟩

include hr

theorem exists_input_spanMin (ho : o ∈ runSpan job inputs lower upper) : ∃ a ∈ inputs, a.spanMin ≤ o.spanMin := by
  rcases runSpan_spanMin ho with ⟨v, hv, h⟩ | ⟨f, hf, h⟩
  · obtain ⟨a, ha, w, hw, hk⟩ := exists_input_entry hi hv
    refine ⟨a, ha, ?_⟩
    rw [h, hk]
    exact Table.spanMin_le_minKey.trans ((hi a ha).minKey_le hw)
  · obtain ⟨⟨g, hg, hle, _⟩, _⟩ := mem_retained hr hf
    obtain ⟨a, ha, hg⟩ := List.mem_flatMap.mp hg
    exact ⟨a, ha, (Table.spanMin_le_start (hi a ha).fragmented hg).trans (hle.trans h)⟩

theorem exists_input_spanMax (ho : o ∈ runSpan job inputs lower upper) : ∃ a ∈ inputs, o.spanMax ≤ a.spanMax := by
  rcases runSpan_spanMax ho with ⟨v, hv, h⟩ | ⟨f, hf, h⟩
  · obtain ⟨a, ha, w, hw, hk⟩ := exists_input_entry hi hv
    refine ⟨a, ha, ?_⟩
    rw [h, hk]
    exact ((hi a ha).le_maxKey hw).trans Table.maxKey_le_spanMax
  · obtain ⟨_, ⟨g, hg, hle⟩, _⟩ := mem_retained hr hf
    obtain ⟨a, ha, hg⟩ := List.mem_flatMap.mp hg
    exact ⟨a, ha, (h.trans hle).trans (Table.stop_le_spanMax (hi a ha).fragmented hg)⟩

theorem runSpan_edges (ho : o ∈ runSpan job inputs lower upper) :
    (∀ l ∈ (spanEdges lower upper).1, l ≤ o.spanMin) ∧
    ∀ u ∈ (spanEdges lower upper).2, o.spanMax ≤ u ∧ ∀ v ∈ o.entries, v.key < u := by
  have hin {v : Version K V} (hv : v ∈ spanVersions job inputs lower upper) :=
    inInterval_of_inSpan (spanVersions_key hi hv)
  refine ⟨fun l hl => ?_, fun u hu => ⟨?_, fun v hv => (hin (mem_spanVersions ho hv)).2 u hu⟩⟩
  · rcases runSpan_spanMin ho with ⟨v, hv, h⟩ | ⟨f, hf, h⟩
    · exact h ▸ (hin hv).1 l hl
    · exact ((mem_retained hr hf).2.2.1 l hl).trans h
  · rcases runSpan_spanMax ho with ⟨v, hv, h⟩ | ⟨f, hf, h⟩
    · exact h ▸ ((hin hv).2 u hu).le
    · exact h.trans ((mem_retained hr hf).2.2.2 u hu)

omit hr in
theorem runSpan_spanBefore : (runSpan job inputs lower upper).Pairwise Table.SpanBefore := by
  have ht := (OutputBuilder.finish_tiled (spanVersions_sorted hi) :
    Tiled (job.retained lower upper) (spanEdges lower upper).2 none (runSpan job inputs lower upper) ∧ _)
  have hf := ht.1.fragments_apart ht.2
  have hd : Table.Disjoint (runSpan job inputs lower upper) := runSpan_disjoint hi
  refine (hf.and hd).imp_of_mem fun {t u} htm _ h => ?_
  obtain ⟨⟨hstop, hstart⟩, hlt⟩ := h
  have hmin : u.spanMin = u.minKey := by
    apply le_antisymm Table.spanMin_le_minKey
    rcases u.spanMin_cases with h | ⟨g, hg, h⟩
    · exact h.ge
    · exact (hstart g hg).trans h.ge
  constructor
  case span =>
    rw [hmin]
    rcases t.spanMax_cases with h | ⟨g, hg, h⟩
    · exact h.le.trans hlt.le
    · exact h.le.trans (hstop g hg)
  case entries =>
    intro v hv
    rw [hmin]
    exact ((runSpan_valid hi t htm).le_maxKey hv).trans_lt hlt

omit [Inhabited K] hi hr in
theorem included_of_mem_spansFrom {cuts : List K} (hs : cuts.Pairwise (· < ·)) (h : ∀ d ∈ cuts, c ≤ d)
    (hm : span ∈ spansFrom (.included c) cuts) : ∃ d, span.1 = .included d ∧ c ≤ d := by
  induction cuts generalizing c
  case nil => exact ⟨c, by rw [List.mem_singleton.mp hm], le_rfl⟩
  case cons d cs ih =>
    obtain ⟨hlt, hs⟩ := List.pairwise_cons.mp hs
    rcases List.mem_cons.mp hm with rfl | hm
    · exact ⟨c, rfl, le_rfl⟩
    · obtain ⟨e, he, hle⟩ := ih hs (fun e he => (hlt e he).le) hm
      exact ⟨e, he, (h d (List.mem_cons_self ..)).trans hle⟩

theorem spans_spanBefore {cuts : List K} (hs : cuts.Pairwise (· < ·)) (hc : ∀ c ∈ cuts, lower.AtOrAbove c) :
    ((spansFrom lower cuts).flatMap fun span => runSpan job inputs span.1 span.2).Pairwise Table.SpanBefore := by
  induction cuts generalizing lower
  case nil =>
    rw [spansFrom, List.flatMap_singleton]
    exact runSpan_spanBefore hi
  case cons c cs ih =>
    obtain ⟨hlt, hs⟩ := List.pairwise_cons.mp hs
    rw [spansFrom, List.flatMap_cons, List.pairwise_append]
    refine ⟨runSpan_spanBefore hi, ih hs fun d hd => (hlt d hd).le, ?_⟩
    intro a ha b hb
    obtain ⟨span, hspan, hb⟩ := List.mem_flatMap.mp hb
    obtain ⟨d, hd, hle⟩ := included_of_mem_spansFrom hs (fun d hd => (hlt d hd).le) hspan
    have hlow : c ≤ b.spanMin := hle.trans ((runSpan_edges hi hr hb).1 d (by rw [hd]; rfl))
    obtain ⟨hmax, hentries⟩ := (runSpan_edges hi hr ha).2 c rfl
    exact ⟨hmax.trans hlow, fun v hv => (hentries v hv).trans_le hlow⟩

end outputs

section

variable {step : Option K → α → Option K} {f : α → K} {r : K → K → Prop} [IsTrans K r] {as : List α} {a : α}
  (h : ∀ m a, ∃ x, step m a = some x ∧ r x (f a) ∧ ∀ y ∈ m, r x y)
include h

omit [LinearOrder K] in
theorem exists_foldl_best (ha : a ∈ as) (m : Option K) :
    ∃ x, as.foldl step m = some x ∧ r x (f a) ∧ ∀ y ∈ m, r x y := by
  induction as generalizing m a
  case nil => cases ha
  case cons b bs ih =>
    obtain ⟨x, hx, hb, hm⟩ := h m b
    cases bs
    case nil =>
      rw [List.mem_singleton.mp ha]
      exact ⟨x, hx, hb, hm⟩
    case cons c cs =>
      rw [List.foldl_cons, hx]
      rcases List.mem_cons.mp ha with rfl | ha
      · obtain ⟨y, hy, _, hyx⟩ := ih (List.mem_cons_self ..) (some x)
        exact ⟨y, hy, trans_of r (hyx x rfl) hb, fun z hz => trans_of r (hyx x rfl) (hm z hz)⟩
      · obtain ⟨y, hy, hya, hyx⟩ := ih ha (some x)
        exact ⟨y, hy, hya, fun z hz => trans_of r (hyx x rfl) (hm z hz)⟩

omit [LinearOrder K] in
theorem foldl_best (ha : a ∈ as) (d : K) : r ((as.foldl step none).getD d) (f a) := by
  obtain ⟨x, hx, hr, _⟩ := exists_foldl_best h ha none
  rwa [hx]

end

section gather

variable [Inhabited K] {ts : List (Table K V)} {a : Table K V}

theorem keySpan_le (ha : a ∈ ts) : (Levels.keySpan ts).1 ≤ a.spanMin := by
  apply foldl_best (r := (· ≤ ·)) (f := Table.spanMin) _ ha
  intro m b
  cases m
  case none => exact ⟨_, rfl, le_rfl, by simp⟩
  case some y =>
    dsimp only
    split
    case isTrue h => exact ⟨y, rfl, h, by simp⟩
    case isFalse h => exact ⟨_, rfl, le_rfl, by simpa using le_of_not_ge h⟩

theorem le_keySpan (ha : a ∈ ts) : a.spanMax ≤ (Levels.keySpan ts).2 := by
  apply foldl_best (r := (· ≥ ·)) (f := Table.spanMax) _ ha
  intro m b
  cases m
  case none => exact ⟨_, rfl, le_rfl, by simp⟩
  case some y =>
    dsimp only
    split
    case isTrue h => exact ⟨y, rfl, h, by simp⟩
    case isFalse h => exact ⟨_, rfl, le_rfl, by simpa using le_of_not_ge h⟩

omit [Inhabited K] in
theorem Table.Valid.span_le (h : a.Valid) : a.spanMin ≤ a.spanMax :=
  Table.spanMin_le_minKey.trans (h.ordered.trans Table.maxKey_le_spanMax)

def Table.Aside (t : Table K V) (ts : List (Table K V)) : Prop :=
  (∀ a ∈ ts, t.SpanBefore a) ∨ ∀ a ∈ ts, a.SpanBefore t

-- A table that gathering leaves behind lies on one side of all it takes: those it takes from the same
-- level are apart from it and overlap the span of the others.
theorem aside_of_gatherTarget {levels : Levels K V} {t : Table K V} (hv : ∀ t ∈ levels.flatten, t.Valid)
    (hus : ∀ u ∈ us, u.Valid) (hd : Table.SpanDisjoint (levels.level j))
    (hg : levels.gatherTarget j us = some ts) (ht : t ∈ levels.level j) (hn : t ∉ ts) : t.Aside ts := by
  simp only [Levels.gatherTarget, Option.ite_none_left_eq_some, Option.some.injEq] at hg
  obtain ⟨_, rfl⟩ := hg
  rw [List.mem_append, not_or, List.mem_filter, not_and] at hn
  have hval {u : Table K V} (h : u ∈ levels.level j) : u.Valid := hv u ((Levels.level_sublist_flatten j).subset h)
  have hapart {u : Table K V} (h : u ∈ levels.level j) (ho : Levels.rangesOverlap u.spanMin u.spanMax _ _) :
      t.SpanApart u := hd.forall ht h fun he => hn.2 ht (he ▸ ho)
  have hout := hn.2 ht
  simp only [Levels.rangesOverlap, Bool.and_eq_true, decide_eq_true_eq, not_and_or, not_le] at hout
  rcases hout with hlt | hlt
  case inl =>
    refine .inr fun a ha => ?_
    rcases List.mem_append.mp ha with ha | ha
    case inl => exact Table.spanBefore_of_lt (hus a ha) ((le_keySpan ha).trans_lt hlt)
    case inr =>
      obtain ⟨ha, ho⟩ := List.mem_filter.mp ha
      apply (hapart ha ho).resolve_left
      intro hb
      have hle := (Bool.and_eq_true_iff.mp ho).1
      exact absurd ((hval ht).span_le.trans (hb.span.trans (of_decide_eq_true hle))) (not_le.mpr hlt)
  case inr =>
    refine .inl fun a ha => ?_
    rcases List.mem_append.mp ha with ha | ha
    case inl => exact Table.spanBefore_of_lt (hval ht) (hlt.trans_le (keySpan_le ha))
    case inr =>
      obtain ⟨ha, ho⟩ := List.mem_filter.mp ha
      apply (hapart ha ho).resolve_right
      intro hb
      have hle := (Bool.and_eq_true_iff.mp ho).2
      exact absurd ((of_decide_eq_true hle).trans (hb.span.trans (hval ht).span_le)) (not_le.mpr hlt)

end gather

namespace Source

-- The jobs that take every table of their target level whose span overlaps theirs, or rewrite one table
-- in place.
def gathers : Source K → Bool
  | capacity _ _ | table _ _ | rangePush _ _ _ => true
  | sweep _ | sweepBottom | rangeRewrite _ _ _ => false

variable [Inhabited K] {cfg : Config K V} {levels : Levels K V} {source : Source K} {t pick : Table K V}

section

variable (hv : ∀ t ∈ levels.flatten, t.Valid) (hd : ∀ i, 0 < i → Table.SpanDisjoint (levels.level i))
include hv hd

theorem aside_of_push (hp : pick ∈ levels.level i) (h : push cfg levels i pick = some ins)
    (ht : t ∈ levels.level (i + 1)) (hn : t ∉ ins) : t.Aside ins := by
  have hval (j : Nat) : ∀ u ∈ levels.level j, u.Valid := fun u hu => hv u ((Levels.level_sublist_flatten j).subset hu)
  unfold push at h
  split at h
  case isTrue h₀ =>
    subst h₀
    rw [Levels.pushOldest, Option.ite_none_left_eq_some] at h
    refine aside_of_gatherTarget hv (fun u hu => hval 0 u ?_) (hd 1 Nat.one_pos) h.2 ht hn
    exact List.mem_of_mem_filter (List.mem_reverse.mp (List.mem_of_mem_take hu))
  apply aside_of_gatherTarget hv _ (hd _ (Nat.succ_pos i)) h ht hn
  exact fun u hu => hval i u (List.mem_singleton.mp hu ▸ hp)

theorem aside_of_gathers (hg : source.gathers) (h : source.inputs cfg levels = some ins)
    (hpos : 0 < source.target levels) (ht : t ∈ levels.level (source.target levels)) (hn : t ∉ ins) :
    t.Aside ins := by
  cases source
  case capacity i n =>
    obtain ⟨pick, hp, h⟩ := Option.bind_eq_some_iff.mp h
    exact aside_of_push hv hd (Levels.mem_of_own hp) h ht hn
  case table i n =>
    obtain ⟨pick, hp, h⟩ := Option.bind_eq_some_iff.mp h
    rw [target] at hpos ht
    split at h
    case isFalse hb =>
      rw [if_neg hb] at ht
      exact aside_of_push hv hd (Levels.mem_of_own hp) h ht hn
    case isTrue hb =>
      rw [if_pos hb] at hpos ht
      rw [Levels.rewriteTable, if_neg hpos.ne', Option.some.injEq] at h
      subst h
      -- The level is disjoint, so the one table that is rewritten is apart from the others.
      have hne : t ≠ pick := fun he => hn (List.mem_singleton.mpr he)
      simpa [Table.Aside, Table.SpanApart] using (hd i hpos).forall ht (Levels.mem_of_own hp) hne
  case rangePush i lower upper =>
    rw [inputs, Option.ite_none_left_eq_some, Levels.rangePush, Option.ite_none_left_eq_some] at h
    refine aside_of_gatherTarget hv (fun u hu => hv u ?_) (hd _ (Nat.succ_pos i)) h.2.2 ht hn
    exact (Levels.level_sublist_flatten i).subset (Drawn.rangeInputs.subset hu)
  case sweep | sweepBottom | rangeRewrite => cases hg

end

end Source

namespace Job

variable [Inhabited K] {job : Job K V} {levels : Levels K V}

def Clear (job : Job K V) (levels : Levels K V) : Prop :=
  ∀ t ∈ job.retained (levels.level job.target), t.Aside job.inputs

theorem prepare_eq_some (h : prepare cfg levels source oldest now granted = some job) :
    source.inputs cfg levels = some job.inputs ∧ job.target = source.target levels ∧
    job.frozen.ranges = collectInputRanges job.inputs ∧ job.cuts.Pairwise (· < ·) := by
  obtain ⟨inputs, hin, h⟩ := Option.bind_eq_some_iff.mp h
  obtain ⟨hull, _, h⟩ := Option.bind_eq_some_iff.mp h
  cases h
  exact ⟨hin, rfl, rfl, planSpans_sorted ..⟩

omit [LinearOrder K] [Inhabited K] in
theorem exists_of_mem_withIds (hu : u ∈ withIds n ts) : ∃ t ∈ ts, u = { t with id := u.id } := by
  induction ts generalizing n
  case nil => cases hu
  case cons t ts ih =>
    rcases List.mem_cons.mp hu with rfl | hu
    · exact ⟨t, List.mem_cons_self .., rfl⟩
    · obtain ⟨s, hs, he⟩ := ih hu
      exact ⟨s, List.mem_cons_of_mem _ hs, he⟩

omit [Inhabited K] in
theorem withIds_spanBefore {ts : List (Table K V)} (h : ts.Pairwise Table.SpanBefore) :
    (withIds n ts).Pairwise Table.SpanBefore := by
  induction ts generalizing n
  case nil => exact .nil
  case cons t ts ih =>
    obtain ⟨ht, h⟩ := List.pairwise_cons.mp h
    refine List.pairwise_cons.mpr ⟨fun u hu => ?_, ih h⟩
    obtain ⟨s, hs, he⟩ := exists_of_mem_withIds hu
    rw [he]
    exact ⟨(ht s hs).span, (ht s hs).entries⟩

variable [Inhabited V] (hv : ∀ t ∈ job.inputs, t.Valid)
  (hr : job.frozen.ranges = collectInputRanges job.inputs)
include hv hr

theorem apart_of_aside {t o : Table K V} (ha : t.Aside job.inputs) (ho : o ∈ job.written) : t.SpanApart o := by
  obtain ⟨span, _, ho⟩ := List.mem_flatMap.mp ho
  rcases ha with h | h
  case inl =>
    obtain ⟨a, ha, hle⟩ := exists_input_spanMin hv hr ho
    exact .inl ⟨(h a ha).span.trans hle, fun v hv => ((h a ha).entries v hv).trans_le hle⟩
  case inr =>
    obtain ⟨a, ha, hle⟩ := exists_input_spanMax hv hr ho
    refine .inr ⟨hle.trans (h a ha).span, fun v hm => ?_⟩
    obtain ⟨b, hb, w, hw, hk⟩ := exists_input_entry hv (mem_spanVersions ho hm)
    exact hk ▸ (h b hb).entries w hw

theorem written_spanBefore (hc : job.cuts.Pairwise (· < ·)) : job.written.Pairwise Table.SpanBefore :=
  spans_spanBefore hv hr hc fun _ _ => trivial

theorem outputs_spanDisjoint (hc : job.cuts.Pairwise (· < ·)) : Table.SpanDisjoint (job.outputs nextId) :=
  (withIds_spanBefore (written_spanBefore hv hr hc)).imp .inl

omit hv hr

-- The spans of the tables below level 0 stay disjoint in every job that gathers its target tables by
-- span, and in every other one whose inputs no table that stays in the target level reaches between.
theorem install_spanDisjoint (cfg : Config K V) (levels : Levels K V) (source : Source K) (oldestSnapshot : Nat)
    (now : Int) (granted nextId : Nat) (hv : ∀ t ∈ levels.flatten, t.Valid)
    (hd : ∀ i, 0 < i → Table.SpanDisjoint (levels.level i))
    (hj : prepare cfg levels source oldestSnapshot now granted = some job)
    (hc : source.gathers ∨ job.Clear levels) :
    ∀ i, 0 < i → Table.SpanDisjoint (Levels.level (job.install levels (job.outputs nextId)) i) := by
  obtain ⟨hin, htarget, hr, hcuts⟩ := prepare_eq_some hj
  have hins : ∀ t ∈ job.inputs, t.Valid := fun t ht => by
    obtain ⟨i, hi⟩ := (Drawn.of_inputs hin).mem_level ht
    exact hv t ((Levels.level_sublist_flatten i).subset hi)
  intro i hi
  rw [level_install]
  have hret : Table.SpanDisjoint (job.retained (levels.level i)) := (hd i hi).sublist List.filter_sublist
  split
  case isFalse => exact hret
  case isTrue h =>
    apply (List.perm_insertionSort _ _).symm.pairwise _ (Std.Symm.symm _ _)
    refine List.pairwise_append.mpr ⟨hret, outputs_spanDisjoint hins hr hcuts, fun t ht o ho => ?_⟩
    obtain ⟨w, hw, he⟩ := exists_of_mem_withIds ho
    have hst : t.Aside job.inputs := by
      rcases hc with hg | hc
      case inr => exact hc t (h ▸ ht)
      case inl =>
        obtain ⟨ht, hn⟩ := List.mem_filter.mp ht
        rw [h, htarget] at hi ht
        exact Source.aside_of_gathers hv hd hg hin hi ht fun hm => of_decide_eq_true hn (List.mem_map_of_mem hm)
    rw [he]
    exact (apart_of_aside hins hr hst hw).imp (fun h => ⟨h.span, h.entries⟩) fun h => ⟨h.span, h.entries⟩

def reachingLevels : Levels Nat Nat :=
  [[fileOf 2 5], [{ fileOf 1 9 with fragments := [⟨2, 7, [1]⟩] }]]

theorem reachingLevels_spanDisjoint (i : Nat) (hi : 0 < i) : Table.SpanDisjoint (reachingLevels.level i) := by
  rcases i with _ | _ | i
  · cases hi
  · decide
  · exact .nil

-- A capacity job takes the table, because its range delete spans key 5.
theorem install_spanDisjoint_gathered :
    ∃ job, prepare (pushingConfig 1) reachingLevels (.capacity 0 0) 0 0 0 = some job ∧
      job.inputs.map Table.id = [2, 1] ∧
      ∀ i, 0 < i → Table.SpanDisjoint (Levels.level (job.install reachingLevels (job.outputs 3)) i) := by
  have hsome : (prepare (pushingConfig 1) reachingLevels (.capacity 0 0) 0 0 0).map
      (·.inputs.map Table.id) = some [2, 1] := by decide +kernel
  obtain ⟨job, hj, hin⟩ := Option.map_eq_some_iff.mp hsome
  exact ⟨job, hj, hin, install_spanDisjoint _ _ _ 0 0 0 3 (by decide) reachingLevels_spanDisjoint hj (.inl rfl)⟩

-- A sweep chooses the tables of its target level by their points: this one stays, and its range
-- delete and the table the sweep writes both span key 5.
theorem install_spanDisjoint_sweep :
    (∀ i, 0 < i → Table.SpanDisjoint (reachingLevels.level i)) ∧
    (prepare (pushingConfig 1) reachingLevels (.sweep 0) 0 0 0).map (fun job =>
      decide (Table.SpanDisjoint (Levels.level (job.install reachingLevels (job.outputs 3)) 1))) = some false :=
  ⟨reachingLevels_spanDisjoint, by decide +kernel⟩

end Job

end OndaDb

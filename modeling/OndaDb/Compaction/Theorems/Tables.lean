import OndaDb.Compaction.Theorems.Sorted
import OndaDb.Lib.Intervals

namespace OndaDb

open List

variable {K V : Type} [LinearOrder K]

abbrev Table.Disjoint (tables : List (Table K V)) : Prop :=
  Intervals.Disjoint Table.minKey Table.maxKey tables

theorem Fragmented.start_lt_stop {fs : List (Fragment K)} (h : Fragmented fs) (hf : f ∈ fs.head?)
    (hg : g ∈ fs) : f.start < g.stop := by
  cases fs
  case nil => simp at hf
  case cons d fs =>
    obtain rfl : d = f := Option.mem_some.mp hf
    have hd := (h.wf d (by simp)).nonempty
    rcases mem_cons.mp hg with rfl | hg'
    · exact hd
    · have hstart := rel_of_pairwise_cons h.sorted hg'
      exact hd.trans_le (hstart.trans (h.wf g hg).nonempty.le)

section sorted

variable {vs : List (Version K V)} (hs : vs.Pairwise fun v w => v.key ≤ w.key)

include hs in
theorem key_le_getLast (hx : x ∈ vs.getLast?) (hv : v ∈ vs) : v.key ≤ x.key := by
  obtain ⟨us, rfl⟩ := getLast?_eq_some_iff.mp hx
  rcases mem_append.mp hv with hv | hv
  · exact (pairwise_append.mp hs).2.2 v hv x (by simp)
  · rw [mem_singleton.mp hv]

include hs in
theorem head_le_key (hx : x ∈ vs.head?) (hv : v ∈ vs) : x.key ≤ v.key := by
  obtain ⟨us, rfl⟩ := head?_eq_some_iff.mp hx
  rcases mem_cons.mp hv with rfl | hv
  · exact le_rfl
  · exact rel_of_pairwise_cons hs hv

end sorted

namespace OutputBuilder

theorem Chunks.pairwise {cs : List (List (Version K V))} (h : Chunks ws cs)
    (hs : ws.Pairwise fun v w => v.key ≤ w.key) :
    cs.Pairwise fun c c' => ∀ v ∈ c, ∀ w ∈ c', v.key < w.key := by
  obtain ⟨hflat, hne, hapart⟩ := h
  subst hflat
  induction cs
  case nil => exact .nil
  case cons c cs hi =>
    rw [flatten_cons, pairwise_append] at hs
    have hcs := hi (fun c' hc' => hne c' (mem_cons_of_mem _ hc')) hapart.tail hs.2.1
    refine pairwise_cons.mpr ⟨fun c' hc' v hv w hw => ?_, hcs⟩
    cases cs
    case nil => simp at hc'
    case cons d cs =>
      have hx : c.getLast? = some _ := getLast?_eq_some_getLast (hne c (by simp))
      have hy : d.head? = some _ := head?_eq_some_head (hne d (by simp))
      have hflat : (d :: cs).flatten.head? = some (d.head (hne d (by simp))) := by
        rw [flatten_cons, head?_append, hy, Option.some_or]
      have hlt := lt_of_le_of_ne (hs.2.2 _ (mem_of_getLast? hx) _ (mem_of_head? hflat))
        ((isChain_cons_cons.mp hapart).1 _ hx _ hy)
      exact (key_le_getLast hs.1 hx hv).trans_lt
        (hlt.trans_le (head_le_key hs.2.1 hflat (mem_flatten.mpr ⟨c', hc', hw⟩)))

variable [Inhabited K] {job : FrozenJob K V} {frags : List (Fragment K)} {lower upper : Option K}

omit [LinearOrder K] in
theorem bounds_of_entries (frags : List (Fragment K)) (hc : c ≠ []) :
    ∃ v ∈ c.head?, ∃ w ∈ c.getLast?, bounds c frags = (v.key, w.key) := by
  have hv : c.head? = some _ := head?_eq_some_head hc
  have hw : c.getLast? = some _ := getLast?_eq_some_getLast hc
  exact ⟨_, hv, _, hw, by simp [bounds, hv, hw]⟩

omit [LinearOrder K] in
theorem bounds_of_fragments (hf : frags ≠ []) :
    ∃ f ∈ frags.head?, ∃ g ∈ frags.getLast?,
      bounds ([] : List (Version K V)) frags = (f.start, g.stop) := by
  have hv : frags.head? = some _ := head?_eq_some_head hf
  have hw : frags.getLast? = some _ := getLast?_eq_some_getLast hf
  exact ⟨_, hv, _, hw, by simp [bounds, summarize, hv, hw, length_pos_iff.mpr hf]⟩

theorem table_valid {c : List (Version K V)} (hs : c.Pairwise Version.Before)
    (hf : Fragmented frags) : (table job frags lower upper c).Valid := by
  have hk : c.Pairwise fun v w => v.key ≤ w.key := hs.imp fun h => h.elim (·.le) (·.1.le)
  have hb : (∀ v ∈ c.head?, (bounds c (clipFragments frags lower upper)).1 = v.key) ∧
      (∀ v ∈ c.getLast?, (bounds c (clipFragments frags lower upper)).2 = v.key) ∧
      (bounds c (clipFragments frags lower upper)).1 ≤ (bounds c (clipFragments frags lower upper)).2 := by
    by_cases hc : c = []
    case pos =>
      subst hc
      refine ⟨by simp, by simp, ?_⟩
      by_cases hcl : clipFragments frags lower upper = []
      case pos => simp [hcl, bounds, summarize]
      obtain ⟨f, hf', g, hg, he⟩ := bounds_of_fragments (V := V) hcl
      rw [he]
      exact (hf.clip.start_lt_stop hf' (mem_of_mem_getLast? hg)).le
    obtain ⟨v, hv, w, hw, he⟩ := bounds_of_entries (clipFragments frags lower upper) hc
    rw [he]
    refine ⟨fun u hu => ?_, fun u hu => ?_, key_le_getLast hk hw (mem_of_mem_head? hv)⟩
    · rw [Option.mem_unique hv hu]
    · rw [Option.mem_unique hw hu]
  exact ⟨hs, hf.clip, hb.1, hb.2.1, hb.2.2⟩

theorem mem_tile (h : t ∈ tile job frags upper lower cs) :
    ∃ c ∈ cs, ∃ lo hi, t = table job frags lo hi c := by
  induction cs generalizing lower
  case nil => simp [tile] at h
  case cons c cs hi =>
    rcases mem_cons.mp h with rfl | h
    · exact ⟨c, by simp, _, _, rfl⟩
    · obtain ⟨c', hc', h⟩ := hi h
      exact ⟨c', mem_cons_of_mem _ hc', h⟩

theorem table_bounds (job : FrozenJob K V) (frags : List (Fragment K)) (lower upper : Option K) (hc : c ≠ []) :
    ∃ v ∈ c, ∃ w ∈ c, (table job frags lower upper c).minKey = v.key ∧
      (table job frags lower upper c).maxKey = w.key := by
  obtain ⟨v, hv, w, hw, he⟩ := bounds_of_entries (clipFragments frags lower upper) hc
  exact ⟨v, mem_of_mem_head? hv, w, mem_of_mem_getLast? hw, by simp [table, he],
    by simp [table, he]⟩

theorem tile_disjoint (hne : ∀ c ∈ cs, c ≠ []) (h : cs.Pairwise fun c c' => ∀ v ∈ c, ∀ w ∈ c', v.key < w.key) :
    Table.Disjoint (tile job frags upper lower cs) := by
  induction cs generalizing lower
  case nil => exact .nil
  case cons c cs hi =>
    obtain ⟨hc, hcs⟩ := pairwise_cons.mp h
    refine pairwise_cons.mpr
      ⟨fun t ht => ?_, hi (fun c' hc' => hne c' (mem_cons_of_mem _ hc')) hcs⟩
    obtain ⟨c', hc', lo, hi, rfl⟩ := mem_tile ht
    obtain ⟨_, _, w, hw, _, hmax⟩ :=
      table_bounds job frags lower (cutOf upper cs) (hne c (by simp))
    obtain ⟨v, hv, _, _, hmin, _⟩ :=
      table_bounds job frags lo hi (hne c' (mem_cons_of_mem _ hc'))
    rw [hmax, hmin]
    exact hc c' hc' w hw v hv

end OutputBuilder

section runSpan

variable [Inhabited V] {job : FrozenJob K V} {inputs : List (Table K V)} {lower upper : KeyBound K}

omit [LinearOrder K] [Inhabited V] in
theorem retainedFragmentSeqs_desc (hd : seqs.Pairwise (· > ·)) :
    (retainedFragmentSeqs seqs oldest droppable).Pairwise (· > ·) := by
  unfold retainedFragmentSeqs
  refine pairwise_append.mpr ⟨hd.filter _, ?_, fun s hs t ht => ?_⟩
  · split
    · split <;> simp
    · exact .nil
  · have hs : oldest < s := by simpa using (mem_filter.mp hs).2
    split at ht
    case h_1 u hu =>
      have hu : u ≤ oldest := by simpa using find?_some hu
      split at ht
      · simp at ht
      · rw [mem_singleton.mp ht]
        omega
    case h_2 => simp at ht

omit [Inhabited V] in
theorem retainedFragment_spec (h : job.retainedFragment f = some g) :
    g.start = f.start ∧ g.stop = f.stop ∧ g.seqs ≠ [] ∧ ∃ droppable,
      g.seqs = retainedFragmentSeqs f.seqs job.oldestSnapshot droppable := by
  simp only [FrozenJob.retainedFragment] at h
  split at h
  case isTrue => cases h
  case isFalse hs =>
    cases h
    exact ⟨rfl, rfl, hs, _, rfl⟩

omit [Inhabited V] in
theorem retained_fragmented : Fragmented (job.retained lower upper) := by
  have hc : Fragmented (job.covering lower upper) := fragmentSpans_fragmented
  constructor
  case wf =>
    intro g hg
    obtain ⟨f, hf, h⟩ := mem_filterMap.mp hg
    obtain ⟨h₁, h₂, h₃, d, h₄⟩ := retainedFragment_spec h
    have hwf := hc.wf f hf
    exact ⟨h₁ ▸ h₂ ▸ hwf.nonempty, h₃, h₄ ▸ retainedFragmentSeqs_desc hwf.desc⟩
  case sorted =>
    refine List.Pairwise.filterMap _ ?_ hc.sorted
    intro f g hfg f' hf' g' hg'
    rw [(retainedFragment_spec hf').2.1, (retainedFragment_spec hg').1]
    exact hfg

omit [LinearOrder K] [Inhabited V] in
theorem exists_input_fragment (hr : job.ranges = collectInputRanges inputs) (hs : s ∈ job.ranges) :
    ∃ f ∈ (tablesData inputs).fragments, f.start = s.start ∧ f.stop = s.stop := by
  rw [hr, collectInputRanges, mem_flatMap] at hs
  obtain ⟨t, ht, hs⟩ := hs
  simp only [spansOfFragments, mem_flatMap, mem_map] at hs
  obtain ⟨f, hf, _, _, rfl⟩ := hs
  exact ⟨f, mem_flatMap.mpr ⟨t, ht, hf⟩, rfl, rfl⟩

omit [Inhabited V] in
theorem mem_retained (hr : job.ranges = collectInputRanges inputs)
    (hg : g ∈ job.retained lower upper) :
    (∃ f ∈ (tablesData inputs).fragments, f.start ≤ g.start ∧ g.start < f.stop) ∧
    (∃ f ∈ (tablesData inputs).fragments, g.stop ≤ f.stop) ∧
    (∀ l ∈ (spanEdges lower upper).1, l ≤ g.start) ∧ ∀ u ∈ (spanEdges lower upper).2, g.stop ≤ u := by
  obtain ⟨f, hf, h⟩ := mem_filterMap.mp hg
  obtain ⟨h₁, h₂, _⟩ := retainedFragment_spec h
  have hwf := fragmentSpans_fragmented.wf f hf
  obtain ⟨s, hs⟩ := exists_mem_of_ne_nil _ hwf.seqs
  obtain ⟨⟨sp, hsp, hk, _⟩, hin⟩ := covered_fragmentSpans.mp ⟨f, hf, ⟨le_rfl, hwf.nonempty⟩, hs⟩
  obtain ⟨⟨sp', hsp', hle⟩, hup⟩ := stop_le_of_mem_fragmentSpans hf
  obtain ⟨f₁, hf₁, he₁, he₁'⟩ := exists_input_fragment hr hsp
  obtain ⟨f₂, hf₂, _, he₂⟩ := exists_input_fragment hr hsp'
  rw [h₁, h₂]
  exact ⟨⟨f₁, hf₁, he₁ ▸ hk.1, he₁' ▸ hk.2⟩, ⟨f₂, hf₂, he₂ ▸ hle⟩, hin.1, hup⟩

omit [Inhabited V] in
theorem clip_retained : clipFragments (job.retained lower upper) none (spanEdges lower upper).2 =
    job.retained lower upper := by
  refine clipFragments_eq_self (fun f hf => (retained_fragmented.wf f hf).nonempty) fun g hg => ?_
  obtain ⟨f, hf, h⟩ := mem_filterMap.mp hg
  rw [(retainedFragment_spec h).2.1]
  exact (stop_le_of_mem_fragmentSpans hf).2

variable [Inhabited K]

theorem runSpan_valid (h : ∀ t ∈ inputs, t.Valid) : ∀ t ∈ runSpan job inputs lower upper, t.Valid := by
  intro t ht
  by_cases hw : spanVersions job inputs lower upper = []
  case pos =>
    rw [runSpan_fragments hw] at ht
    split at ht
    · simp at ht
    · rw [mem_singleton.mp ht]
      exact OutputBuilder.table_valid .nil retained_fragmented
  obtain ⟨cs, hcs, he⟩ := runSpan_tile hw
  rw [he] at ht
  obtain ⟨c, hc, lo, hi, rfl⟩ := OutputBuilder.mem_tile ht
  refine OutputBuilder.table_valid ?_ retained_fragmented
  exact (hcs.flatten ▸ spanVersions_before h).sublist (sublist_flatten_of_mem hc)

theorem runSpan_disjoint (h : ∀ t ∈ inputs, t.Valid) :
    Table.Disjoint (runSpan job inputs lower upper) := by
  by_cases hw : spanVersions job inputs lower upper = []
  case pos =>
    rw [runSpan_fragments hw]
    split
    · exact .nil
    · exact pairwise_singleton _ _
  obtain ⟨cs, hcs, he⟩ := runSpan_tile hw
  rw [he]
  exact OutputBuilder.tile_disjoint hcs.nonempty (hcs.pairwise (spanVersions_sorted h))

theorem runSpan_bounds (ht : t ∈ runSpan job inputs lower upper) :
    (∃ v ∈ spanVersions job inputs lower upper, ∃ w ∈ spanVersions job inputs lower upper,
      t.minKey = v.key ∧ t.maxKey = w.key) ∨
    spanVersions job inputs lower upper = [] ∧ ∃ f ∈ job.retained lower upper,
      ∃ g ∈ job.retained lower upper, t.minKey = f.start ∧ t.maxKey = g.stop := by
  by_cases hw : spanVersions job inputs lower upper = []
  case pos =>
    refine .inr ⟨hw, ?_⟩
    rw [runSpan_fragments hw] at ht
    split at ht
    case isTrue => simp at ht
    case isFalse hn =>
      obtain ⟨f, hf, g, hg, he⟩ := OutputBuilder.bounds_of_fragments (V := V) hn
      rw [mem_singleton.mp ht]
      refine ⟨f, mem_of_mem_head? hf, g, mem_of_mem_getLast? hg, ?_, ?_⟩
      · simp [OutputBuilder.table, clip_retained, he]
      · simp [OutputBuilder.table, clip_retained, he]
  obtain ⟨cs, hcs, he⟩ := runSpan_tile hw
  rw [he] at ht
  obtain ⟨c, hc, lo, hi, rfl⟩ := OutputBuilder.mem_tile ht
  obtain ⟨v, hv, w, hw, hb⟩ := OutputBuilder.table_bounds job (job.retained lower upper) lo hi
    (hcs.nonempty c hc)
  refine .inl ⟨v, ?_, w, ?_, hb⟩
  · exact hcs.flatten ▸ mem_flatten.mpr ⟨c, hc, hv⟩
  · exact hcs.flatten ▸ mem_flatten.mpr ⟨c, hc, hw⟩

end runSpan

end OndaDb

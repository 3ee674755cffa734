import OndaDb.Compaction.Theorems.KeyVersions
import OndaDb.Compaction.Theorems.Output
import OndaDb.Read.Theorems.Reference

namespace OndaDb

open List

variable {K V : Type} [LinearOrder K]

def KeyBound.AtOrAbove (lower : KeyBound K) (k : K) : Prop :=
  match lower with
  | .unbounded => True
  | .included l => l ≤ k
  | .excluded l => l < k

instance : DecidablePred (KeyBound.AtOrAbove lower : K → Prop) := fun k =>
  match lower with
  | .unbounded => inferInstanceAs (Decidable True)
  | .included l => inferInstanceAs (Decidable (l ≤ k))
  | .excluded l => inferInstanceAs (Decidable (l < k))

def InSpan (lower upper : KeyBound K) (k : K) : Prop :=
  lower.AtOrAbove k ∧ ¬pastUpper upper k

theorem inSpan_unbounded : InSpan .unbounded .unbounded (k : K) :=
  ⟨trivial, by simp [pastUpper]⟩

theorem inInterval_of_inSpan (h : InSpan lower upper (k : K)) :
    InInterval (spanEdges lower upper).1 (spanEdges lower upper).2 k := by
  obtain ⟨h₁, h₂⟩ := h
  constructor
  · cases lower <;> simp_all [KeyBound.AtOrAbove, spanEdges, le_of_lt]
  · cases upper <;> simp_all [spanEdges, pastUpper]

section tile

variable [Inhabited K] {job : FrozenJob K V} {frags : List (Fragment K)} {upper : Option K}

theorem OutputBuilder.tile_entries :
    (tile job frags upper lower cs).flatMap Table.entries = cs.flatten := by
  induction cs generalizing lower
  case nil => rfl
  case cons c cs hi => simp [tile, hi, table]

theorem OutputBuilder.covered_tile (hne : cs ≠ []) (hc : ∀ c ∈ cs, c ≠ [])
    (hs : cs.flatten.Pairwise fun v w => v.key ≤ w.key) (hi : ∀ v ∈ cs.flatten, InInterval lower upper v.key) :
    Covered ((tile job frags upper lower cs).flatMap Table.fragments) k s ↔
      Covered frags k s ∧ InInterval lower upper k := by
  induction cs generalizing lower
  case nil => exact absurd rfl hne
  case cons c cs ih =>
    simp only [tile, flatMap_cons, covered_append, table, covered_clipFragments]
    cases cs
    case nil => simp [tile, cutOf]
    case cons c' cs =>
      obtain ⟨w, c'', hw⟩ := exists_cons_of_ne_nil (hc c' (by simp))
      have hcut : cutOf upper (c' :: cs) = some w.key := by simp [cutOf, hw]
      have hmem : w ∈ (c :: c' :: cs).flatten := by simp [hw]
      have hwi := hi w hmem
      have hrest : ∀ v ∈ (c' :: cs).flatten, InInterval (some w.key) upper v.key := by
        intro v hv
        refine ⟨?_, (hi v (by simp_all)).2⟩
        simp only [Option.mem_def, Option.some.injEq, forall_eq']
        simp only [flatten_cons, hw, cons_append] at hv hs
        have hs := (pairwise_append.mp hs).2.1
        rcases mem_cons.mp hv with rfl | hv
        · exact le_rfl
        · exact (pairwise_cons.mp hs).1 v hv
      have hsorted : (c' :: cs).flatten.Pairwise fun v w => v.key ≤ w.key := by
        rw [flatten_cons] at hs
        exact (pairwise_append.mp hs).2.1
      rw [hcut, ih (by simp) (fun c hc' => hc c (mem_cons_of_mem _ hc')) hsorted hrest]
      rw [← and_or_left]
      refine and_congr_right fun _ => ?_
      simp only [InInterval, Option.mem_def, Option.some.injEq, forall_eq'] at hwi ⊢
      constructor
      · rintro (⟨h₁, h₂⟩ | ⟨h₁, h₂⟩)
        · exact ⟨h₁, fun u hu => h₂.trans (hwi.2 u hu)⟩
        · exact ⟨fun l hl => (hwi.1 l hl).trans h₁, h₂⟩
      · rintro ⟨h₁, h₂⟩
        exact (lt_or_ge k w.key).imp (⟨h₁, ·⟩) (⟨·, h₂⟩)

end tile

section inputs

variable {inputs : List (Table K V)} {lower upper : KeyBound K}

theorem seekLower_excluded {vs : List (Version K V)} (hs : vs.Pairwise Version.Before) :
    seekLower (.excluded k) vs = vs.filter (k < ·.key) := by
  have hp : vs.Pairwise fun v w => decide (w.key < k ∨ w.key = k ∧ 0 < w.seq) →
      decide (v.key < k ∨ v.key = k ∧ 0 < v.seq) := by
    refine hs.imp fun {v w} h hw => ?_
    simp only [decide_eq_true_eq] at hw ⊢
    exact Version.Before.trans (w := ⟨k, 0, 0, .put, v.value⟩) h hw
  -- The seek leaves the later keys, behind the version of `k` at sequence 0 if there is one.
  have hseek : vs.dropWhile (fun v => decide (v.key < k ∨ v.key = k ∧ 0 < v.seq)) =
      vs.filter fun v => k < v.key ∨ v.key = k ∧ v.seq = 0 := by
    rw [dropWhile_eq_filter_not hp]
    refine filter_congr fun v _ => ?_
    rw [Bool.eq_iff_iff]
    simp only [Bool.not_eq_true', decide_eq_false_iff_not, decide_eq_true_eq]
    have := lt_trichotomy v.key k
    grind
  have hle : ∀ u ∈ vs.filter (fun v => k < v.key ∨ v.key = k ∧ v.seq = 0),
      k < u.key ∨ u.key = k ∧ u.seq = 0 := by simp
  have hflt : vs.filter (k < ·.key) =
      (vs.filter fun v => k < v.key ∨ v.key = k ∧ v.seq = 0).filter (k < ·.key) := by
    rw [filter_filter]
    refine filter_congr fun v _ => ?_
    by_cases h : k < v.key <;> simp [h]
  have hsorted := hs.filter fun v => k < v.key ∨ v.key = k ∧ v.seq = 0
  rw [hflt, seekLower, hseek]
  generalize vs.filter (fun v => decide (k < v.key ∨ v.key = k ∧ v.seq = 0)) = us at hle hsorted
  match us with
  | [] => simp
  | u :: us =>
    obtain ⟨hu, _⟩ := pairwise_cons.mp hsorted
    have hus : ∀ w ∈ us, k < w.key := by
      intro w hw
      rcases hle u (by simp) with h₁ | ⟨h₁, h₂⟩
      · exact h₁.trans_le ((hu w hw).elim le_of_lt fun h => h.1.le)
      · rcases hu w hw with h | h
        · exact h₁ ▸ h
        · omega
    have hfus : us.filter (k < ·.key) = us := filter_eq_self.mpr (by simpa using hus)
    rcases hle u (by simp) with h | ⟨h, _⟩
    · simp [h, h.ne', hfus]
    · simp [h, hfus]

theorem seekLower_eq_filter {vs : List (Version K V)} (hs : vs.Pairwise Version.Before) :
    seekLower lower vs = vs.filter (lower.AtOrAbove ·.key) := by
  match lower with
  | .unbounded => exact (filter_eq_self.mpr fun v _ => decide_eq_true trivial).symm
  | .included k =>
    have hp : vs.Pairwise fun v w => decide (w.key < k) → decide (v.key < k) :=
      hs.imp fun h hw => by
        simp only [decide_eq_true_eq] at hw ⊢
        exact (h.elim le_of_lt fun h => h.1.le).trans_lt hw
    rw [seekLower, dropWhile_eq_filter_not hp]
    exact filter_congr fun v _ => by simp [KeyBound.AtOrAbove, ← not_lt]
  | .excluded k => exact seekLower_excluded hs

theorem mem_seekLower {vs : List (Version K V)} (hs : vs.Pairwise Version.Before) :
    v ∈ seekLower lower vs ↔ v ∈ vs ∧ lower.AtOrAbove v.key := by
  simp [seekLower_eq_filter hs]

theorem seekLower_sublist (vs : List (Version K V)) : (seekLower lower vs).Sublist vs := by
  unfold seekLower
  split
  · exact .refl _
  · exact dropWhile_sublist _
  · split
    · exact nil_sublist _
    · rename_i he
      have := he ▸ dropWhile_sublist (l := vs) _
      split
      · exact (sublist_cons_self ..).trans this
      · exact this

theorem seeked_sorted (h : ∀ t ∈ inputs, t.Valid) :
    ∀ vs ∈ inputs.map (fun t => seekLower lower t.entries), vs.Pairwise fun v w => ¬w.Before v := by
  intro vs hvs
  obtain ⟨t, ht, he⟩ := mem_map.mp hvs
  exact he ▸ ((h t ht).sorted.sublist (seekLower_sublist _)).imp
    (Version.before_strictWeak.asymm _ _)

theorem merged_sorted (h : ∀ t ∈ inputs, t.Valid) :
    (KMerge.all Version.Before (inputs.map fun t => seekLower lower t.entries)).Pairwise
      fun v w => ¬w.Before v :=
  KMerge.all_sorted Version.before_strictWeak (seeked_sorted h)

theorem pastUpper_mono (h : k ≤ k') (hp : pastUpper upper k) : pastUpper upper (k' : K) := by
  cases upper <;> simp_all [pastUpper]
  case included => exact hp.trans_le h
  case excluded => exact hp.trans h

theorem mergedInputs_eq_filter (h : ∀ t ∈ inputs, t.Valid) :
    mergedInputs inputs lower upper =
      (KMerge.all Version.Before (inputs.map fun t => seekLower lower t.entries)).filter
        fun v => !pastUpper upper v.key := by
  refine takeWhile_eq_filter ((merged_sorted h).imp fun {v w} hvw hw => ?_)
  have hle := (Version.not_before.mp hvw).elim le_of_lt fun h => h.1.le
  by_contra hc
  simp [pastUpper_mono hle (by simpa using hc)] at hw

theorem mem_mergedInputs (h : ∀ t ∈ inputs, t.Valid) (hv : v ∈ mergedInputs inputs lower upper) :
    v ∈ (tablesData inputs).versions ∧ InSpan lower upper v.key := by
  rw [mergedInputs_eq_filter h, mem_filter,
    (KMerge.all_perm Version.before_strictWeak _).mem_iff, mem_flatten] at hv
  obtain ⟨⟨vs, hvs, hv⟩, hu⟩ := hv
  obtain ⟨t, ht, he⟩ := mem_map.mp hvs
  obtain ⟨hv, hl⟩ := (mem_seekLower (h t ht).sorted).mp (he ▸ hv)
  exact ⟨mem_flatMap.mpr ⟨t, ht, hv⟩, hl, by simpa using hu⟩

theorem filter_mergedInputs (h : ∀ t ∈ inputs, t.Valid) (hk : InSpan lower upper k) :
    (mergedInputs inputs lower upper).filter (fun v => v.key = k ∧ v.seq = s) =
      (tablesData inputs).versions.filter fun v => v.key = k ∧ v.seq = s := by
  have hclass : ∀ v w : Version K V, decide (v.key = k ∧ v.seq = s) → decide (w.key = k ∧ w.seq = s) →
      ¬v.Before w := by
    simp only [decide_eq_true_eq]
    rintro v w ⟨rfl, rfl⟩ ⟨hw, hs⟩ (hlt | ⟨_, hlt⟩)
    · exact lt_irrefl _ (hw ▸ hlt)
    · omega
  have hup (vs : List (Version K V)) : (vs.filter fun v => !pastUpper upper v.key).filter
      (fun v => decide (v.key = k ∧ v.seq = s)) = vs.filter fun v => v.key = k ∧ v.seq = s := by
    rw [filter_filter]
    refine filter_congr fun v _ => ?_
    by_cases hv : v.key = k <;> simp [hv, hk.2]
  rw [mergedInputs_eq_filter h, hup, KMerge.all_filter Version.before_strictWeak (seeked_sorted h) hclass]
  clear hup hclass
  induction inputs
  case nil => rfl
  case cons t ts hi =>
    have hseek : (seekLower lower t.entries).filter (fun v => decide (v.key = k ∧ v.seq = s)) =
        t.entries.filter fun v => v.key = k ∧ v.seq = s := by
      rw [seekLower_eq_filter (h t (by simp)).sorted, filter_filter]
      refine filter_congr fun v _ => ?_
      by_cases hv : v.key = k <;> simp [hv, hk.1]
    have hts := hi fun u hu => h u (mem_cons_of_mem _ hu)
    simp only [tablesData, map_cons, flatten_cons, filter_append, flatMap_cons,
      hseek] at hts ⊢
    rw [hts]

def spanStream (inputs : List (Table K V)) (lower upper : KeyBound K) : List (Version K V) :=
  dropCopies none (mergedInputs inputs lower upper)

theorem spanStream_sorted (h : ∀ t ∈ inputs, t.Valid) :
    (spanStream inputs lower upper).Pairwise Version.Before :=
  dropCopies_sorted ((merged_sorted h).sublist (takeWhile_sublist _)) (by simp) |>.left

theorem mem_spanStream (h : ∀ t ∈ inputs, t.Valid) (hv : v ∈ spanStream inputs lower upper) :
    v ∈ (tablesData inputs).versions ∧ InSpan lower upper v.key :=
  mem_mergedInputs h (mem_of_mem_dropCopies hv)

theorem find?_spanStream (h : ∀ t ∈ inputs, t.Valid) (hk : InSpan lower upper k) :
    (spanStream inputs lower upper).find? (fun v => v.key = k ∧ v.seq = s) =
      (tablesData inputs).version k s := by
  rw [spanStream, find?_dropCopies (by simp), ← head?_filter, filter_mergedInputs h hk,
    head?_filter, Data.version]

end inputs

section ranges

variable {job : FrozenJob K V} {inputs : List (Table K V)} {lower upper : KeyBound K}

theorem covered_covering (hr : job.ranges = collectInputRanges inputs) (hk : InSpan lower upper k) :
    Covered (job.covering lower upper) k s ↔ Covered (tablesData inputs).fragments k s := by
  have hc : RangeDeleted (collectInputRanges inputs) k s ↔ Covered (tablesData inputs).fragments k s := by
    simp only [tablesData, Covered, RangeDeleted, collectInputRanges, mem_flatMap]
    constructor
    · rintro ⟨sp, ⟨t, ht, hsp⟩, h⟩
      obtain ⟨f, hf, h⟩ := rangeDeleted_spansOfFragments.mp ⟨sp, hsp, h⟩
      exact ⟨f, ⟨t, ht, hf⟩, h⟩
    · rintro ⟨f, ⟨t, ht, hf⟩, h⟩
      obtain ⟨sp, hsp, h⟩ := rangeDeleted_spansOfFragments.mpr ⟨f, hf, h⟩
      exact ⟨sp, ⟨t, ht, hsp⟩, h⟩
  rw [FrozenJob.covering, covered_fragmentSpans, hr, hc, and_iff_left (inInterval_of_inSpan hk)]

theorem masks_iff : job.masks (job.covering lower upper) v ↔
    ∃ c, Covered (job.covering lower upper) v.key c ∧ c ≤ job.oldestSnapshot ∧ v.seq < c := by
  have hc : Fragmented (job.covering lower upper) := fragmentSpans_fragmented
  rw [← Newest.exists_gt_iff hc.coveringSeqIn_newest, FrozenJob.masks]
  cases coveringSeqIn (job.covering lower upper) v.key job.oldestSnapshot <;> simp

theorem mem_retainedFragmentSeqs (hd : seqs.Pairwise (· > ·)) :
    s ∈ retainedFragmentSeqs seqs oldest droppable ↔
      s ∈ seqs ∧ (oldest < s ∨ droppable = false ∧ ∀ t ∈ seqs, t ≤ oldest → t ≤ s) := by
  have hn := Newest.find? (r := oldest) hd
  unfold retainedFragmentSeqs
  cases hf : seqs.find? (· ≤ oldest) <;> rw [hf] at hn
  case none =>
    have hgt : s ∈ seqs → oldest < s := fun hs => by_contra fun hc => hn s (by omega) hs
    simp only [append_nil, mem_filter, decide_eq_true_eq]
    exact ⟨fun h => ⟨h.1, .inl h.2⟩, fun h => ⟨h.1, hgt h.1⟩⟩
  case some c =>
    obtain ⟨hc, hle, hmax⟩ := hn
    cases droppable <;> simp only [mem_append, mem_filter, decide_eq_true_eq,
      Bool.false_eq_true, if_false, if_true, mem_singleton, not_mem_nil, or_false,
      true_and, false_and, Bool.true_eq_false]
    case false =>
      constructor
      · rintro (h | rfl)
        · exact ⟨h.1, .inl h.2⟩
        · exact ⟨hc, .inr fun t ht hto => hmax t hto ht⟩
      · rintro ⟨hs, h | h⟩
        · exact .inl ⟨hs, h⟩
        · by_cases hso : oldest < s
          · exact .inl ⟨hs, hso⟩
          · exact .inr (le_antisymm (hmax s (by omega) hs) (h c hc hle))

theorem covered_retained : Covered (job.retained lower upper) k s ↔
    ∃ f ∈ job.covering lower upper, f.Contains k ∧ s ∈ f.seqs ∧ (job.oldestSnapshot < s ∨
      (job.bottom && !job.mountOverlaps f.start f.stop) = false ∧
        ∀ t ∈ f.seqs, t ≤ job.oldestSnapshot → t ≤ s) := by
  simp only [Covered, FrozenJob.retained, mem_filterMap]
  constructor
  · rintro ⟨g, ⟨f, hf, hg⟩, hk, hs⟩
    simp only [FrozenJob.retainedFragment] at hg
    split at hg
    · simp at hg
    · cases hg
      exact ⟨f, hf, hk, (mem_retainedFragmentSeqs (fragmentSpans_fragmented.wf f hf).desc).mp hs⟩
  · rintro ⟨f, hf, hk, hs⟩
    replace hs := (mem_retainedFragmentSeqs (fragmentSpans_fragmented.wf f hf).desc).mpr hs
    exact ⟨_, ⟨f, hf, if_neg (ne_nil_of_mem hs)⟩, hk, hs⟩

theorem covering_of_retained (h : Covered (job.retained lower upper) k s) :
    Covered (job.covering lower upper) k s := by
  obtain ⟨f, hf, hk, hs, _⟩ := covered_retained.mp h
  exact ⟨f, hf, hk, hs⟩

theorem retained_above (hs : job.oldestSnapshot < s) :
    Covered (job.retained lower upper) k s ↔ Covered (job.covering lower upper) k s := by
  refine ⟨covering_of_retained, fun ⟨f, hf, hk, h⟩ => ?_⟩
  exact covered_retained.mpr ⟨f, hf, hk, h, .inl hs⟩

theorem exists_retained (hb : job.bottom = false) (hs : s ≤ job.oldestSnapshot)
    (h : Covered (job.covering lower upper) k s) :
    ∃ t ≤ job.oldestSnapshot, Covered (job.retained lower upper) k t := by
  obtain ⟨f, hf, hk, hsf⟩ := h
  have hc : Fragmented (job.covering lower upper) := fragmentSpans_fragmented
  have hn := Fragment.visibleSeq_newest (r := job.oldestSnapshot) (hc.wf f hf).desc
  cases hv : f.visibleSeq job.oldestSnapshot <;> rw [hv] at hn
  case none => exact absurd hsf (hn s hs)
  case some t =>
    obtain ⟨ht, hle, hmax⟩ := hn
    exact ⟨t, hle, covered_retained.mpr
      ⟨f, hf, hk, ht, .inr ⟨by simp [hb], fun u hu hle => hmax u hle hu⟩⟩⟩

end ranges

section runSpan

variable [Inhabited V]
variable {job : FrozenJob K V} {inputs : List (Table K V)} {lower upper : KeyBound K}

theorem spanVersions_eq : spanVersions job inputs lower upper =
    SpanState.start.writes job (job.covering lower upper) (spanStream inputs lower upper) :=
  SpanState.run_eq_writes

theorem spanVersions_key (h : ∀ t ∈ inputs, t.Valid)
    (hw : w ∈ spanVersions job inputs lower upper) : InSpan lower upper w.key := by
  rw [spanVersions_eq] at hw
  rcases SpanState.mem_writes_key hw with ⟨v, hv, hk⟩ | ⟨p, hp, _⟩
  · exact hk ▸ (mem_spanStream h hv).right
  · simp [SpanState.start] at hp

theorem spanVersions_sorted (h : ∀ t ∈ inputs, t.Valid) :
    (spanVersions job inputs lower upper).Pairwise fun v w => v.key ≤ w.key := by
  rw [spanVersions_eq]
  exact SpanState.writes_sorted ((spanStream_sorted h).imp fun h => h.elim le_of_lt fun h => h.1.le)
    (by simp [SpanState.start])

variable [Inhabited K]

theorem runSpan_tile (hw : spanVersions job inputs lower upper ≠ []) :
    ∃ cs, OutputBuilder.Chunks (spanVersions job inputs lower upper) cs ∧
      runSpan job inputs lower upper =
        OutputBuilder.tile job (job.retained lower upper) (spanEdges lower upper).2 none cs :=
  OutputBuilder.finish_foldl_write hw

theorem runSpan_fragments (hw : spanVersions job inputs lower upper = []) :
    runSpan job inputs lower upper = if job.retained lower upper = [] then [] else
      [OutputBuilder.table job (job.retained lower upper) none (spanEdges lower upper).2 []] := by
  rw [runSpan, hw, foldl_nil, OutputBuilder.finish_new job]

theorem runSpan_versions :
    (tablesData (runSpan job inputs lower upper)).versions = spanVersions job inputs lower upper := by
  by_cases hw : spanVersions job inputs lower upper = []
  case pos =>
    rw [runSpan_fragments hw, hw]
    split <;> simp [tablesData, OutputBuilder.table]
  obtain ⟨cs, hcs, he⟩ := runSpan_tile hw
  rw [he]
  exact OutputBuilder.tile_entries.trans hcs.flatten

theorem covered_runSpan (h : ∀ t ∈ inputs, t.Valid) (hk : InSpan lower upper k) :
    Covered (tablesData (runSpan job inputs lower upper)).fragments k s ↔
      Covered (job.retained lower upper) k s := by
  have hin {k} (hk : InSpan lower upper k) : InInterval none (spanEdges lower upper).2 k :=
    ⟨by simp, (inInterval_of_inSpan hk).right⟩
  by_cases hw : spanVersions job inputs lower upper = []
  case pos =>
    rw [runSpan_fragments hw]
    split
    case isTrue hn => simp [tablesData, hn]
    case isFalse => simp [tablesData, OutputBuilder.table, covered_clipFragments, hin hk]
  obtain ⟨cs, hcs, he⟩ := runSpan_tile hw
  have hne : cs ≠ [] := fun hc => hw (by rw [← hcs.flatten, hc, flatten_nil])
  rw [he]
  refine (OutputBuilder.covered_tile hne hcs.nonempty ?_ ?_).trans (and_iff_left (hin hk))
  · exact hcs.flatten ▸ spanVersions_sorted h
  · exact hcs.flatten ▸ fun v hv => hin (spanVersions_key h hv)

end runSpan

end OndaDb

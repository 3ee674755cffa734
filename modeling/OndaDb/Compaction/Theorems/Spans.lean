import OndaDb.Compaction.Job
import OndaDb.Compaction.Theorems.Tables
import OndaDb.Lib.Sort
import OndaDb.RangeTombstone.Theorems.Exact

-- Running a job in several spans, compared with running it in one.
namespace OndaDb

variable {K V : Type} [LinearOrder K]

namespace SpanState

variable [Inhabited V] {job : FrozenJob K V} {covering covering' : List (Fragment K)} {s : SpanState K V}
  {vs xs : List (Version K V)}

theorem writes_of_masks (h : ∀ v ∈ vs, job.masks covering v = job.masks covering' v) :
    s.writes job covering vs = s.writes job covering' vs := by
  induction vs generalizing s
  case nil => rfl
  case cons v vs hi =>
    have ha : s.accept job covering v = s.accept job covering' v := by
      simp only [accept, retain, h v (List.mem_cons_self ..)]
    rw [writes, writes, ha, hi fun w hw => h w (List.mem_cons_of_mem _ hw)]

-- Versions of keys that were not met before are written as by a new merge, once the pending fold of
-- the last key is flushed.
theorem writes_new (hp : ∀ p ∈ s.pending, ∀ x ∈ xs, p.key ≠ x.key)
    (hl : ∀ l ∈ s.retention.lastKey, ∀ x ∈ xs, l ≠ x.key) :
    s.writes job covering xs = flushPending job s.pending ++ start.writes job covering xs := by
  cases xs
  case nil => simp [writes, start, flushPending]
  case cons x xs =>
    have he : s.enter job x.key = (flushPending job s.pending, { s with pending := none }) := by
      unfold enter
      cases h : s.pending
      case none => cases s; simp_all [flushPending]
      case some p => simp [hp p h x (List.mem_cons_self ..)]
    have hflush : s.writes job covering (x :: xs) = flushPending job s.pending ++
        { s with pending := none }.writes job covering (x :: xs) := by
      rw [writes, writes, accept_eq_retain (s := { s with pending := none }) (by simp), accept, he,
        List.append_assoc]
    have hnew : { s with pending := none }.writes job covering (x :: xs) =
        { (start : SpanState K V) with prev := s.prev }.writes job covering (x :: xs) := by
      refine writes_congr (s := ⟨.new, none, s.prev⟩) fun u hu => ?_
      have hne : s.retention.lastKey ≠ some u.key := fun h => hl u.key h u hu rfl
      simp [VersionRetention.enter, start, VersionRetention.new, hne]
    rw [hflush, hnew, writes_prev]

theorem writes_append (hp : ∀ p ∈ s.pending, ∀ x ∈ xs, p.key ≠ x.key)
    (hl : ∀ l ∈ s.retention.lastKey, ∀ x ∈ xs, l ≠ x.key) (hk : ∀ v ∈ vs, ∀ x ∈ xs, v.key ≠ x.key) :
    s.writes job covering (vs ++ xs) = s.writes job covering vs ++ start.writes job covering xs := by
  induction vs generalizing s
  case nil => exact writes_new hp hl
  case cons v vs hi =>
    obtain ⟨_, _, _, _, _, hpend⟩ := accept_key job covering s v
    have hv := hk v (List.mem_cons_self ..)
    have hlast := accept_lastKey job covering s v
    rw [List.cons_append, writes, writes, List.append_assoc, hi]
    · exact fun p hp x hx => hpend p hp ▸ hv x hx
    · intro l hl' x hx
      rcases hlast with h | h
      · exact hl l (h ▸ hl') x hx
      · rw [h] at hl'
        exact Option.some.inj hl' ▸ hv x hx
    · exact fun w hw => hk w (List.mem_cons_of_mem _ hw)

end SpanState

section stream

variable {inputs : List (Table K V)} {lower upper : KeyBound K} {v : Version K V}

theorem Version.Before.ne (h : v.Before w) : v.key ≠ w.key ∨ v.seq ≠ w.seq :=
  h.imp ne_of_lt fun h => ne_of_gt h.2

theorem nodup_of_before {vs : List (Version K V)} (h : vs.Pairwise Version.Before) : vs.Nodup :=
  h.imp fun hvw he => by simpa [he] using hvw.ne

theorem eq_of_before {vs ws : List (Version K V)} (hv : vs.Pairwise Version.Before)
    (hw : ws.Pairwise Version.Before) (h : ∀ u, u ∈ vs ↔ u ∈ ws) : vs = ws := by
  have hp := (List.perm_ext_iff_of_nodup (nodup_of_before hv) (nodup_of_before hw)).mpr h
  refine hp.eq_of_pairwise (fun a b _ _ hab hba => ?_) hv hw
  exact absurd hba (Version.before_strictWeak.asymm a b hab)

theorem mem_spanStream_iff (h : ∀ t ∈ inputs, t.Valid) : v ∈ spanStream inputs lower upper ↔
    (tablesData inputs).version v.key v.seq = some v ∧ InSpan lower upper v.key := by
  constructor
  case mp =>
    intro hv
    have hk := (mem_spanStream h hv).2
    refine ⟨?_, hk⟩
    rw [← find?_spanStream h hk]
    cases hf : (spanStream inputs lower upper).find? fun w => w.key = v.key ∧ w.seq = v.seq
    case none => exact absurd (List.find?_eq_none.mp hf v hv) (by simp)
    case some w =>
      have hs : (spanStream inputs lower upper).Pairwise fun v w => v.key ≠ w.key ∨ v.seq ≠ w.seq :=
        (spanStream_sorted h).imp fun h => h.ne
      have hw : w.key = v.key ∧ w.seq = v.seq := by simpa using List.find?_some hf
      rw [Option.some.injEq]
      by_contra hne
      have : Std.Symm fun v w : Version K V => v.key ≠ w.key ∨ v.seq ≠ w.seq :=
        ⟨fun _ _ h => h.imp Ne.symm Ne.symm⟩
      exact (hs.forall (List.mem_of_find?_eq_some hf) hv hne).elim (· hw.1) (· hw.2)
  case mpr =>
    rintro ⟨hv, hk⟩
    rw [← find?_spanStream h hk] at hv
    exact List.mem_of_find?_eq_some hv

theorem KeyBound.AtOrAbove.mono (hc : lower.AtOrAbove c) (h : c ≤ k) : lower.AtOrAbove (k : K) := by
  cases lower
  case unbounded => trivial
  case included l => exact le_trans hc h
  case excluded l => exact lt_of_lt_of_le hc h

theorem inSpan_split (hc : lower.AtOrAbove c) : InSpan lower .unbounded (k : K) ↔
    InSpan lower (.excluded c) k ∨ InSpan (.included c) .unbounded k := by
  constructor
  case mp =>
    rintro ⟨hk, _⟩
    refine (lt_or_ge k c).imp (fun h => ⟨hk, by simpa [pastUpper] using h⟩) fun h => ⟨h, by simp [pastUpper]⟩
  case mpr =>
    rintro (⟨hk, _⟩ | ⟨hk, _⟩)
    · exact ⟨hk, by simp [pastUpper]⟩
    · exact ⟨hc.mono hk, by simp [pastUpper]⟩

theorem lt_of_inSpan_excluded (h : InSpan lower (.excluded c) (k : K)) : k < c := by
  simpa [pastUpper] using h.2

theorem spanStream_split (h : ∀ t ∈ inputs, t.Valid) (hc : lower.AtOrAbove c) :
    spanStream inputs lower .unbounded =
      spanStream inputs lower (.excluded c) ++ spanStream inputs (.included c) .unbounded := by
  apply eq_of_before (spanStream_sorted h)
  · refine List.pairwise_append.mpr ⟨spanStream_sorted h, spanStream_sorted h, fun v hv w hw => .inl ?_⟩
    exact (lt_of_inSpan_excluded (mem_spanStream h hv).2).trans_le (mem_spanStream h hw).2.1
  · intro v
    rw [List.mem_append, mem_spanStream_iff h, mem_spanStream_iff h, mem_spanStream_iff h,
      inSpan_split hc, and_or_left]

end stream

section cuts

variable {inputs : List (Table K V)} {lower upper : KeyBound K} {job : FrozenJob K V} {cuts : List K}

theorem masks_covering (hk : InSpan lower upper v.key) : job.masks (job.covering lower upper) v =
    (newestSpan job.ranges v.key job.oldestSnapshot).any (v.seq < ·) := by
  rw [FrozenJob.masks, FrozenJob.covering, coveringSeqIn_fragmentSpans (inInterval_of_inSpan hk)]

theorem atOrAbove_of_mem_spansFrom (hs : cuts.Pairwise (· < ·)) (hc : ∀ c ∈ cuts, lower.AtOrAbove c)
    (hm : span ∈ spansFrom lower cuts) (hk : InSpan span.1 span.2 k) : lower.AtOrAbove (k : K) := by
  induction cuts generalizing lower
  case nil =>
    rw [List.mem_singleton.mp hm] at hk
    exact hk.1
  case cons c cuts ih =>
    obtain ⟨hcs, hs⟩ := List.pairwise_cons.mp hs
    rcases List.mem_cons.mp hm with rfl | hm
    · exact hk.1
    · have : (KeyBound.included c).AtOrAbove k := ih hs (fun d hd => (hcs d hd).le) hm
      exact (hc c (List.mem_cons_self ..)).mono this

theorem existsUnique_span (hs : cuts.Pairwise (· < ·)) (hc : ∀ c ∈ cuts, lower.AtOrAbove c)
    (hk : lower.AtOrAbove k) : ∃! span, span ∈ spansFrom lower cuts ∧ InSpan span.1 span.2 k := by
  induction cuts generalizing lower
  case nil =>
    refine ⟨(lower, .unbounded), ⟨by simp [spansFrom], hk, by simp [pastUpper]⟩, ?_⟩
    exact fun span h => by simpa [spansFrom] using h.1
  case cons c cuts ih =>
    obtain ⟨hcs, hs⟩ := List.pairwise_cons.mp hs
    have hcs : ∀ d ∈ cuts, (KeyBound.included c).AtOrAbove d := fun d hd => (hcs d hd).le
    by_cases hkc : k < c
    case pos =>
      refine ⟨(lower, .excluded c), ⟨by simp [spansFrom], hk, by simpa [pastUpper] using hkc⟩, ?_⟩
      rintro span ⟨hm, hi⟩
      rcases List.mem_cons.mp hm with rfl | hm
      · rfl
      · exact absurd (atOrAbove_of_mem_spansFrom hs hcs hm hi) (not_le.mpr hkc)
    obtain ⟨span, ⟨hm, hi⟩, hu⟩ := ih hs hcs (not_lt.mp hkc)
    refine ⟨span, ⟨List.mem_cons_of_mem _ hm, hi⟩, ?_⟩
    rintro span' ⟨hm', hi'⟩
    rcases List.mem_cons.mp hm' with rfl | hm'
    · exact absurd (lt_of_inSpan_excluded hi') hkc
    · exact hu span' ⟨hm', hi'⟩

variable [Inhabited V]

theorem spanVersions_split (h : ∀ t ∈ inputs, t.Valid) (hc : lower.AtOrAbove c) :
    spanVersions job inputs lower .unbounded =
      spanVersions job inputs lower (.excluded c) ++ spanVersions job inputs (.included c) .unbounded := by
  rw [spanVersions_eq, spanVersions_eq, spanVersions_eq, spanStream_split h hc, SpanState.writes_append]
  · congr 1
    · apply SpanState.writes_of_masks
      intro v hv
      have hk := (mem_spanStream h hv).2
      rw [masks_covering hk, masks_covering ((inSpan_split hc).mpr (.inl hk))]
    · apply SpanState.writes_of_masks
      intro v hv
      have hk := (mem_spanStream h hv).2
      rw [masks_covering hk, masks_covering ((inSpan_split hc).mpr (.inr hk))]
  · simp [SpanState.start]
  · simp [SpanState.start, VersionRetention.new]
  · intro v hv w hw
    exact ((lt_of_inSpan_excluded (mem_spanStream h hv).2).trans_le (mem_spanStream h hw).2.1).ne

theorem spanVersions_spansFrom (h : ∀ t ∈ inputs, t.Valid) (hs : cuts.Pairwise (· < ·))
    (hc : ∀ c ∈ cuts, lower.AtOrAbove c) :
    (spansFrom lower cuts).flatMap (fun span => spanVersions job inputs span.1 span.2) =
      spanVersions job inputs lower .unbounded := by
  induction cuts generalizing lower
  case nil => simp [spansFrom]
  case cons c cuts ih =>
    obtain ⟨hcs, hs⟩ := List.pairwise_cons.mp hs
    have hcs : ∀ d ∈ cuts, (KeyBound.included c).AtOrAbove d := fun d hd => (hcs d hd).le
    rw [spansFrom, List.flatMap_cons, ih hs hcs, spanVersions_split h (hc c (List.mem_cons_self ..))]

end cuts

section ranges

variable {inputs : List (Table K V)} {lower upper : KeyBound K} {job : FrozenJob K V} {cuts : List K}

def FrozenJob.TouchesMount (job : FrozenJob K V) (lower upper : KeyBound K) (k : K) : Prop :=
  ∃ f ∈ job.covering lower upper, f.Contains k ∧ job.mountOverlaps f.start f.stop

instance {k : K} : Decidable (job.TouchesMount lower upper k) :=
  inferInstanceAs (Decidable (∃ f ∈ job.covering lower upper, _))

theorem mem_seqs_iff (hk : InSpan lower upper k) (hf : f ∈ job.covering lower upper) (hc : f.Contains k) :
    s ∈ f.seqs ↔ RangeDeleted job.ranges k s := by
  have hfr : Fragmented (job.covering lower upper) := fragmentSpans_fragmented
  rw [← hfr.covered_iff hf hc, FrozenJob.covering, covered_fragmentSpans,
    and_iff_left (inInterval_of_inSpan hk)]

theorem covered_retained_iff (hk : InSpan lower upper k) : Covered (job.retained lower upper) k s ↔
    RangeDeleted job.ranges k s ∧ (job.oldestSnapshot < s ∨
      (job.bottom → job.TouchesMount lower upper k) ∧
        ∀ t, RangeDeleted job.ranges k t → t ≤ job.oldestSnapshot → t ≤ s) := by
  have hfr : Fragmented (job.covering lower upper) := fragmentSpans_fragmented
  have htouch (f : Fragment K) (hf : f ∈ job.covering lower upper) (hc : f.Contains k) :
      (job.bottom && !job.mountOverlaps f.start f.stop) = false ↔
        (job.bottom → job.TouchesMount lower upper k) := by
    have : job.TouchesMount lower upper k ↔ job.mountOverlaps f.start f.stop :=
      ⟨fun ⟨g, hg, hgc, hm⟩ => hfr.eq_of_contains hf hg hc hgc ▸ hm, fun hm => ⟨f, hf, hc, hm⟩⟩
    rw [this]
    cases job.bottom <;> simp
  rw [covered_retained]
  constructor
  case mp =>
    rintro ⟨f, hf, hc, hs, h⟩
    refine ⟨(mem_seqs_iff hk hf hc).mp hs, h.imp_right fun ⟨hd, hn⟩ => ⟨(htouch f hf hc).mp hd, ?_⟩⟩
    exact fun t ht => hn t ((mem_seqs_iff hk hf hc).mpr ht)
  case mpr =>
    rintro ⟨hs, h⟩
    have hcov : Covered (job.covering lower upper) k s :=
      covered_fragmentSpans.mpr ⟨hs, inInterval_of_inSpan hk⟩
    obtain ⟨f, hf, hc, hsf⟩ := hcov
    refine ⟨f, hf, hc, hsf, h.imp_right fun ⟨hd, hn⟩ => ⟨(htouch f hf hc).mpr hd, ?_⟩⟩
    exact fun t ht => hn t ((mem_seqs_iff hk hf hc).mp ht)

theorem covered_retained_alike (hk : InSpan lower upper k) :
    (∀ s, Covered (job.retained lower upper) k s ↔ Covered (job.retained .unbounded .unbounded) k s) ↔
      (job.bottom → (∃ s ≤ job.oldestSnapshot, RangeDeleted job.ranges k s) →
        (job.TouchesMount lower upper k ↔ job.TouchesMount .unbounded .unbounded k)) := by
  simp only [covered_retained_iff hk, covered_retained_iff inSpan_unbounded]
  constructor
  case mp =>
    rintro h hb ⟨s, hs, hd⟩
    have hn : Newest (RangeDeleted job.ranges k) job.oldestSnapshot _ := newestSpan_newest
    cases hc : newestSpan job.ranges k job.oldestSnapshot <;> rw [hc] at hn
    case none => exact absurd hd (hn s hs)
    case some c =>
      obtain ⟨hdc, hle, hmax⟩ := hn
      have hmax' : ∀ t, RangeDeleted job.ranges k t → t ≤ job.oldestSnapshot → t ≤ c :=
        fun t ht hto => hmax t hto ht
      have hnot := not_lt.mpr hle
      have := h c
      rw [and_iff_right hdc, and_iff_right hdc, or_iff_right hnot, or_iff_right hnot, and_iff_left hmax',
        and_iff_left hmax'] at this
      simpa [hb] using this
  case mpr =>
    intro h s
    refine and_congr_right fun hd => or_congr_right' fun hs => ?_
    by_cases hb : job.bottom
    case pos => rw [h hb ⟨s, not_lt.mp hs, hd⟩]
    case neg => simp [hb]

variable [Inhabited V] [Inhabited K]

theorem fragments_runSpan (ht : t ∈ runSpan job inputs lower upper) :
    ∃ lo hi, t.fragments = clipFragments (job.retained lower upper) lo hi := by
  by_cases hw : spanVersions job inputs lower upper = []
  case pos =>
    rw [runSpan_fragments hw] at ht
    split at ht
    case isTrue => cases ht
    case isFalse => exact ⟨_, _, by rw [List.mem_singleton.mp ht]; rfl⟩
  obtain ⟨cs, _, he⟩ := runSpan_tile hw
  obtain ⟨c, _, lo, hi, rfl⟩ := OutputBuilder.mem_tile (he ▸ ht)
  exact ⟨lo, hi, rfl⟩

theorem retained_of_runSpan (h : Covered (tablesData (runSpan job inputs lower upper)).fragments k s) :
    Covered (job.retained lower upper) k s := by
  obtain ⟨f, hf, hk, hs⟩ := h
  obtain ⟨t, ht, hf⟩ := List.mem_flatMap.mp hf
  obtain ⟨lo, hi, he⟩ := fragments_runSpan ht
  exact (covered_clipFragments.mp ⟨f, he ▸ hf, hk, hs⟩).1

omit [Inhabited V] [Inhabited K] in
theorem inSpan_of_mem_spansFrom (hl : ∀ l, lower ≠ .excluded l) (hm : span ∈ spansFrom lower cuts)
    (hk : InInterval (spanEdges span.1 span.2).1 (spanEdges span.1 span.2).2 k) : InSpan span.1 span.2 (k : K) := by
  induction cuts generalizing lower
  case nil =>
    rw [List.mem_singleton.mp hm] at hk ⊢
    refine ⟨?_, by simp [pastUpper]⟩
    cases lower
    case unbounded => trivial
    case included l => exact hk.1 l rfl
    case excluded l => exact absurd rfl (hl l)
  case cons c cuts ih =>
    rcases List.mem_cons.mp hm with rfl | hm
    · refine ⟨?_, by simpa [pastUpper] using hk.2 c rfl⟩
      cases lower
      case unbounded => trivial
      case included l => exact hk.1 l rfl
      case excluded l => exact absurd rfl (hl l)
    · exact ih (fun _ h => by cases h) hm

omit [Inhabited V] [Inhabited K] in
theorem covered_flatMap {spans : List α} {run : α → List (Table K V)} :
    Covered (tablesData (spans.flatMap run)).fragments k s ↔
      ∃ span ∈ spans, Covered (tablesData (run span)).fragments k s := by
  simp only [Covered, tablesData, List.mem_flatMap]
  constructor
  case mp =>
    rintro ⟨f, ⟨t, ⟨span, hm, ht⟩, hf⟩, h⟩
    exact ⟨span, hm, f, ⟨t, ht, hf⟩, h⟩
  case mpr =>
    rintro ⟨span, hm, f, ⟨t, ht, hf⟩, h⟩
    exact ⟨f, ⟨t, ⟨span, hm, ht⟩, hf⟩, h⟩

theorem covered_flatMap_runSpan (h : ∀ t ∈ inputs, t.Valid) (hs : cuts.Pairwise (· < ·))
    (hm : span ∈ spansFrom .unbounded cuts) (hk : InSpan span.1 span.2 k) :
    Covered (tablesData ((spansFrom .unbounded cuts).flatMap fun span =>
      runSpan job inputs span.1 span.2)).fragments k s ↔ Covered (job.retained span.1 span.2) k s := by
  rw [covered_flatMap]
  constructor
  case mp =>
    rintro ⟨span', hm', hc⟩
    have hr := retained_of_runSpan hc
    have hin := (covered_fragmentSpans.mp (covering_of_retained hr)).2
    have hk' := inSpan_of_mem_spansFrom nofun hm' hin
    have hu : ∃! span, span ∈ spansFrom .unbounded cuts ∧ InSpan span.1 span.2 k :=
      existsUnique_span hs (fun _ _ => trivial) trivial
    exact hu.unique ⟨hm', hk'⟩ ⟨hm, hk⟩ ▸ hr
  case mpr => exact fun hr => ⟨span, hm, (covered_runSpan h hk).mpr hr⟩

end ranges

namespace SpanPlan

variable {inputs targetTables : List (Table K V)} {partitioner : Option (PartitionResolver K)} {keys : List K}

theorem candidates_sorted : (candidates inputs targetTables partitioner).Pairwise (· < ·) :=
  List.pairwise_lt_dedup_insertionSort _

theorem nearest_nodup : (nearest weights total wanted).Nodup := by
  have hsome (o : Option Nat) : o.toList.Nodup := by cases o <;> simp
  have step : ∀ (ks chosen : List Nat), chosen.Nodup → (ks.foldl (fun chosen k =>
      let goal := total / (wanted + 1) * (k + 1)
      let free := (List.range weights.length).filter (· ∉ chosen)
      chosen ++ (free.argmin fun i =>
        (weights[i]?.getD 0 - goal) + (goal - weights[i]?.getD 0)).toList) chosen).Nodup := by
    intro ks
    induction ks
    case nil => exact fun _ h => h
    case cons k ks ih =>
      intro chosen h
      apply ih
      refine List.nodup_append.mpr ⟨h, hsome _, fun a ha b hb hab => ?_⟩
      have hfree := List.argmin_mem (Option.mem_toList.mp hb)
      exact absurd (hab ▸ ha) (of_decide_eq_true (List.mem_filter.mp hfree).2)
  exact step _ [] .nil

theorem sample_sorted (h : keys.Pairwise (· < ·)) :
    (sample bytes weighed wanted keys).Pairwise (· < ·) := by
  unfold sample
  split
  case isTrue => exact h
  dsimp only
  generalize hn : nearest _ _ _ = idx
  have hnd : idx.Nodup := hn ▸ nearest_nodup
  have hlt : (idx.insertionSort (· ≤ ·)).Pairwise (· < ·) := by
    have hd := (List.perm_insertionSort (· ≤ ·) idx).nodup_iff.mpr hnd
    exact (idx.pairwise_insertionSort (· ≤ ·)).and hd |>.imp fun h => lt_of_le_of_ne h.1 h.2
  refine List.Pairwise.filterMap _ (fun i j hij a ha b hb => ?_) hlt
  obtain ⟨hi, rfl⟩ := List.getElem?_eq_some_iff.mp ha
  obtain ⟨hj, rfl⟩ := List.getElem?_eq_some_iff.mp hb
  exact List.pairwise_iff_getElem.mp h i j hi hj hij

theorem occupied_sublist : (occupied inputs previous keys).Sublist keys := by
  induction keys generalizing previous
  case nil => exact .slnil
  case cons c keys ih =>
    unfold occupied
    split
    case isTrue => exact ih.cons_cons c
    case isFalse => exact ih.cons c

end SpanPlan

theorem planSpans_sorted [Inhabited K] (cfg : Config K V) (inputs targetTables : List (Table K V))
    (partitioner : Option (PartitionResolver K)) (maxSpans : Nat) :
    (planSpans cfg inputs targetTables partitioner maxSpans).Pairwise (· < ·) := by
  unfold planSpans
  split
  case isTrue => exact .nil
  dsimp only
  split
  case isTrue => exact .nil
  apply List.Pairwise.sublist SpanPlan.occupied_sublist
  exact SpanPlan.sample_sorted (SpanPlan.candidates_sorted.filter _)

def coveringSeqOf (ts : List (Table K V)) (k : K) (readSeq : Nat) : Option Nat :=
  (tablesData ts).fragments.filter (·.Contains k) |>.flatMap (fun f => f.seqs.filter (· ≤ readSeq)) |>.max?

theorem coveringSeqOf_newest {ts : List (Table K V)} (r : Nat) :
    Newest (Covered (tablesData ts).fragments k) r (coveringSeqOf ts k r) := by
  apply Newest.max?
  intro s
  simp only [List.mem_flatMap, List.mem_filter, decide_eq_true_eq, Covered]
  constructor
  case mp =>
    rintro ⟨f, ⟨hf, hc⟩, hs, hr⟩
    exact ⟨⟨f, hf, hc, hs⟩, hr⟩
  case mpr =>
    rintro ⟨⟨f, hf, hc, hs⟩, hr⟩
    exact ⟨f, ⟨hf, hc⟩, hs, hr⟩

-- A job in several spans writes the versions it writes in one. Over a key both show the same range
-- deletes if and only if both keep or both drop the newest one at or below the snapshot.
theorem runSpan_planSpans [Inhabited K] [Inhabited V] (cfg : Config K V) (job : FrozenJob K V)
    (inputs targetTables : List (Table K V)) (partitioner : Option (PartitionResolver K)) (maxSpans : Nat)
    (h : ∀ t ∈ inputs, t.Valid) :
    let spans := spansFrom .unbounded (planSpans cfg inputs targetTables partitioner maxSpans)
    let many  := spans.flatMap fun span => runSpan job inputs span.1 span.2
    let one   := runSpan job inputs .unbounded .unbounded
    (∀ k, ∃! span, span ∈ spans ∧ InSpan span.1 span.2 k) ∧
    (tablesData many).versions = (tablesData one).versions ∧
    ∀ k, ∀ span ∈ spans, InSpan span.1 span.2 k →
      ((∀ r, coveringSeqOf many k r = coveringSeqOf one k r) ↔
        (job.bottom → (∃ s ≤ job.oldestSnapshot, RangeDeleted job.ranges k s) →
          (job.TouchesMount span.1 span.2 k ↔ job.TouchesMount .unbounded .unbounded k))) := by
  intro spans many one
  have hs := planSpans_sorted cfg inputs targetTables partitioner maxSpans
  refine ⟨fun k => existsUnique_span hs (fun _ _ => trivial) trivial, ?_, fun k span hm hk => ?_⟩
  · calc (tablesData many).versions
      _ = spans.flatMap (fun span => (tablesData (runSpan job inputs span.1 span.2)).versions) := by
        exact List.flatMap_assoc
      _ = spans.flatMap (fun span => spanVersions job inputs span.1 span.2) := by
        simp only [runSpan_versions]
      _ = spanVersions job inputs .unbounded .unbounded :=
        spanVersions_spansFrom h hs fun _ _ => trivial
      _ = (tablesData one).versions := runSpan_versions.symm
  · rw [Newest.forall_eq_iff coveringSeqOf_newest coveringSeqOf_newest, ← covered_retained_alike hk]
    apply forall_congr'
    intro s
    rw [covered_flatMap_runSpan h hs hm hk, covered_runSpan h inSpan_unbounded]

def mountedInputs : List (Table Nat Nat) := [
  ⟨1, [⟨2, 4, 0, .put, 0⟩], [⟨0, 20, [3]⟩], 2, 2, none, none, false⟩,
  ⟨2, [⟨10, 2, 0, .put, 0⟩, ⟨12, 4, 0, .put, 0⟩], [], 10, 12, none, none, false⟩]

def mountedJob : FrozenJob Nat Nat where
  bottom := true
  oldestSnapshot := 5
  now := 0
  partitioner := none
  filter := none
  mergeFold := none
  ranges := collectInputRanges mountedInputs
  foreignSpans := [(15, 16)]
  targetBytes := 1000
  length := fun _ _ => 1

def splittingConfig : Config Nat Nat where
  l1FileCountTrigger := 4
  maxSubcompactions := 2
  targetFileSize := 1000
  bytewise := true
  partitioner := ⟨fun _ => none, fun _ => none⟩
  filter := none
  mergeOperator := none
  enableMergeFolding := false
  length := fun _ _ => 1
  bytes := fun _ => 1

-- The delete is kept at 12, whichever way the job runs: its span touches the mount, too.
theorem runSpan_planSpans_touching :
    let spans := spansFrom .unbounded (planSpans splittingConfig mountedInputs (mountedInputs.drop 1) none 2)
    let many  := spans.flatMap fun span => runSpan mountedJob mountedInputs span.1 span.2
    let one   := runSpan mountedJob mountedInputs .unbounded .unbounded
    spans = [(.unbounded, .excluded 10), (.included 10, .unbounded)] ∧
    (tablesData many).versions = (tablesData one).versions ∧
    ∀ r, coveringSeqOf many 12 r = coveringSeqOf one 12 r := by
  intro spans many one
  have hspans : spans = [(.unbounded, .excluded 10), (.included 10, .unbounded)] := by decide +kernel
  have h := runSpan_planSpans splittingConfig mountedJob mountedInputs (mountedInputs.drop 1) none 2
    (by decide +kernel)
  have hm : (KeyBound.included 10, KeyBound.unbounded) ∈ spans := by rw [hspans]; decide
  refine ⟨hspans, h.2.1, (h.2.2 12 _ hm ⟨by decide, by decide⟩).mpr fun _ _ => ?_⟩
  exact iff_of_true (by decide +kernel) (by decide +kernel)

-- At 2 the delete is kept by one span, because the fragment reaches the mount, and dropped by two,
-- because the part below the cut does not.
theorem runSpan_planSpans_drops :
    let spans := spansFrom .unbounded (planSpans splittingConfig mountedInputs (mountedInputs.drop 1) none 2)
    coveringSeqOf (spans.flatMap fun span => runSpan mountedJob mountedInputs span.1 span.2) 2 9 = none ∧
    coveringSeqOf (runSpan mountedJob mountedInputs .unbounded .unbounded) 2 9 = some 3 := by
  decide +kernel

end OndaDb

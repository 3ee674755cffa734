import OndaDb.Compaction.Theorems.KeyHistory

namespace OndaDb

open List

variable {K V : Type}

def Version.absent (v : Version K V) (now : Int) : Bool :=
  !v.isMerge && (v.tombstone || v.expired now)

theorem Version.absent_iff {v : Version K V} : v.absent now ↔ v.link now = .base none := by
  cases hm : v.isMerge <;> cases ht : v.tombstone <;> cases he : v.expired now <;>
    simp [absent, link, hm, ht, he]

theorem Version.absent_mono {v : Version K V} (h : v.absent now) (hc : now ≤ clock) :
    v.absent clock := by
  simp only [absent, Bool.and_eq_true, Bool.or_eq_true, expired, decide_eq_true_eq] at h ⊢
  exact ⟨h.1, h.2.imp_right fun h => ⟨h.1, h.2.trans hc⟩⟩

-- An expired put above the snapshot: a bottom job drops it but keeps what is older.
def FrozenJob.dropsAbove (job : FrozenJob K V) (v : Version K V) : Bool :=
  job.oldestSnapshot < v.seq && SpanState.dropsExpired job v

-- Under each expired put of the key that the job drops above the snapshot, the newest version that
-- stays, if there is one, shows no value either: it is deleted or expired itself, or a range
-- tombstone no newer than the put deletes it.
def FrozenJob.ExpiredSafe [LinearOrder K] (job : FrozenJob K V) (d : Data K V) (k : K) : Prop :=
  ∀ s v, d.version k s = some v → job.dropsAbove v →
    ∀ t u, d.version k t = some u → t < s → ¬job.dropsAbove u →
      (∀ t' u', d.version k t' = some u' → t < t' → t' < s → job.dropsAbove u') →
      u.absent job.now ∨ ∃ c, t < c ∧ c ≤ s ∧ Covered d.fragments k c

theorem FrozenJob.expiredSafe_of_absent [LinearOrder K] {job : FrozenJob K V} {d : Data K V}
    (h : ∀ v ∈ d.versions, job.dropsAbove v → ∀ u ∈ d.versions, u.seq < v.seq → u.absent job.now)
    (k : K) : job.ExpiredSafe d k := by
  intro s v hv hd t u hu hts _ _
  obtain ⟨hv, _, hvs⟩ := Data.mem_of_version hv
  obtain ⟨hu, _, hus⟩ := Data.mem_of_version hu
  exact .inl (h v hv hd u hu (by omega))

namespace KeyRun

variable [LinearOrder K] {job : FrozenJob K V} {ins outs : Data K V} {f : Option V → V → V}

def kept (job : FrozenJob K V) (ins : Data K V) (clock : Int) (k : K) : History V := fun s =>
  (((ins.version k s).filter (!job.dropsAbove ·)).map (Version.link clock)).or
    (if Covered ins.fragments k s then some (.base none) else none)

theorem kept_of_le (hs : s ≤ job.oldestSnapshot) :
    kept job ins clock k s = ins.history clock k s := by
  have : (ins.version k s).filter (!job.dropsAbove ·) = ins.version k s := by
    cases hv : ins.version k s
    case none => rfl
    case some v =>
      have hvs := (Data.mem_of_version hv).2.2
      exact if_pos (by simp [FrozenJob.dropsAbove, show ¬job.oldestSnapshot < v.seq by omega])
  rw [kept, this, Data.history]

theorem history_above (R : KeyRun job ins outs k) (hs : job.oldestSnapshot < s) :
    outs.history clock k s = kept job ins clock k s := by
  have : outs.version k s = (ins.version k s).filter (!job.dropsAbove ·) := by
    rw [R.version_above hs]
    cases hv : ins.version k s
    case none => rfl
    case some v =>
      have hvs := (Data.mem_of_version hv).2.2
      simp [Option.filter, FrozenJob.dropsAbove, show job.oldestSnapshot < v.seq by omega]
  simp only [Data.history, kept, this, R.above_covered s hs]

theorem below_kept (R : KeyRun job ins outs k) (hm : job.FoldsOperands ins k f)
    (hnow : job.now ≤ clock) (he : job.bottom → e = none) (hn : job.oldestSnapshot < n) :
    History.below f (outs.history clock k) e n = History.below f (kept job ins clock k) e n := by
  refine History.below_congr_above (m := job.oldestSnapshot + 1) ?_ hn fun s hs _ => R.history_above hs
  rw [R.below_snapshot hm hnow he]
  exact History.below_congr fun s hs => (kept_of_le (by omega)).symm

theorem below_kept_eq_none_iff {v : Version K V} (hv : ins.version k s = some v)
    (hd : job.dropsAbove v) :
    History.below f (kept job ins clock k) none (s + 1) = none ↔
      ∀ t u, ins.version k t = some u → t < s → ¬job.dropsAbove u →
        (∀ t' u', ins.version k t' = some u' → t < t' → t' < s → job.dropsAbove u') →
        u.absent clock ∨ ∃ c, t < c ∧ c ≤ s ∧ Covered ins.fragments k c := by
  have hdropped {t} {u : Version K V} (hu : ins.version k t = some u) (hd : job.dropsAbove u) :
      kept job ins clock k t = if Covered ins.fragments k t then some (.base none) else none := by
    simp [kept, hu, Option.filter, hd]
  have hkept {t} {u : Version K V} (hu : ins.version k t = some u) (hd : ¬job.dropsAbove u) :
      kept job ins clock k t = some (u.link clock) := by
    simp [kept, hu, Option.filter, hd]
  rw [History.below_eq_none_iff]
  constructor
  case mp =>
    intro h t u hu hts hdu hbetween
    by_cases hc : ∃ c, t < c ∧ c ≤ s ∧ Covered ins.fragments k c
    case pos => exact .inr hc
    refine .inl (Version.absent_iff.mpr (h t (by omega) (fun r h₁ h₂ => ?_) _ (hkept hu hdu)))
    have hncov : ¬Covered ins.fragments k r := fun hcov => hc ⟨r, h₁, by omega, hcov⟩
    cases hr : ins.version k r
    case none => simp [kept, hr, hncov]
    case some w =>
      rw [hdropped hr, if_neg hncov]
      rcases Nat.lt_succ_iff_lt_or_eq.mp h₂ with h₂ | rfl
      · exact hbetween r w hr h₁ h₂
      · exact Option.some.inj (hv.symm.trans hr) ▸ hd
  case mpr =>
    intro h t ht hnone l hl
    have hncov : ∀ c, t < c → c ≤ s → ¬Covered ins.fragments k c := by
      intro c h₁ h₂ hcov
      have := hnone c h₁ (by omega)
      cases hw : (ins.version k c).filter (!job.dropsAbove ·) <;> simp [kept, hw, hcov] at this
    have hcover (hkt : kept job ins clock k t =
        if Covered ins.fragments k t then some (.base none) else none) : l = .base none := by
      rw [hkt] at hl
      split at hl <;> simp_all
    cases hu : ins.version k t
    case none => exact hcover (by simp [kept, hu])
    case some u =>
      by_cases hdu : job.dropsAbove u
      case pos => exact hcover (hdropped hu hdu)
      have hts : t < s := by
        refine (Nat.lt_succ_iff_lt_or_eq.mp ht).resolve_right ?_
        rintro rfl
        exact hdu (Option.some.inj (hv.symm.trans hu) ▸ hd)
      cases (hkept hu hdu).symm.trans hl
      refine Version.absent_iff.mp ((h t u hu hts hdu fun r w hr h₁ h₂ => ?_).resolve_right ?_)
      · by_contra hdw
        have := hnone r h₁ (by omega)
        simp [hkept hr hdw] at this
      · exact fun ⟨c, h₁, h₂, hcov⟩ => hncov c h₁ h₂ hcov

section reads

variable {k : K} (R : KeyRun job ins outs k) (hm : job.FoldsOperands ins k f)
include R hm

theorem below_iff_dropped (hnow : job.now ≤ clock) (he : job.bottom → e = none) :
    (∀ n, job.oldestSnapshot < n →
      History.below f (outs.history clock k) e n = History.below f (ins.history clock k) e n) ↔
    ∀ s v, ins.version k s = some v → job.dropsAbove v →
      History.below f (kept job ins clock k) e (s + 1) = none := by
  have hgt {s} {v : Version K V} (hv : ins.version k s = some v) (hd : job.dropsAbove v) :
      job.oldestSnapshot < s := by
    simp only [FrozenJob.dropsAbove, Bool.and_eq_true, decide_eq_true_eq] at hd
    exact (Data.mem_of_version hv).2.2 ▸ hd.1
  have hiff := History.below_eq_iff_dropped
    (D := fun s => ∃ v, ins.version k s = some v ∧ job.dropsAbove v) ?deleted ?same
    (R.below_snapshot hm hnow he)
  case deleted =>
    rintro s ⟨v, hv, hd⟩
    refine ⟨hgt hv hd, ?_⟩
    have hab : v.absent job.now := by
      simp only [FrozenJob.dropsAbove, SpanState.dropsExpired, Bool.and_eq_true] at hd
      simp [Version.absent, hd.2.1.1.2, hd.2.2]
    rw [Data.history_of_version hv, Version.absent_iff.mp (Version.absent_mono hab hnow)]
  case same =>
    intro s hs hd
    rw [R.history_above hs, kept, Data.history]
    cases hv : ins.version k s
    case none => rfl
    case some v =>
      have hdv : ¬job.dropsAbove v := fun h => hd ⟨v, hv, h⟩
      simp [Option.filter, hdv]
  refine hiff.trans ⟨fun h s v hv hd => ?_, fun h s => ?_⟩
  · rw [← R.below_kept hm hnow he (Nat.lt_succ_of_lt (hgt hv hd)), h s ⟨v, hv, hd⟩]
  · rintro ⟨v, hv, hd⟩
    rw [R.below_kept hm hnow he (Nat.lt_succ_of_lt (hgt hv hd)), h s v hv hd]

theorem below_eq_of_safe (hs : job.ExpiredSafe ins k) (hnow : job.now ≤ clock)
    (he : job.bottom → e = none) (hn : job.oldestSnapshot < n) :
    History.below f (outs.history clock k) e n = History.below f (ins.history clock k) e n := by
  refine (R.below_iff_dropped hm hnow he).mpr (fun s v hv hd => ?_) n hn
  have hbot : job.bottom := by
    simp only [FrozenJob.dropsAbove, SpanState.dropsExpired, Bool.and_eq_true] at hd
    exact hd.2.1.1.1
  rw [he hbot, below_kept_eq_none_iff hv hd]
  intro t u hu hts hdu hbetween
  exact (hs s v hv hd t u hu hts hdu hbetween).imp_left (Version.absent_mono · hnow)

theorem safe_of_below_eq (h : ∀ n, job.oldestSnapshot < n →
    History.below f (outs.history job.now k) none n = History.below f (ins.history job.now k) none n) :
    job.ExpiredSafe ins k := by
  intro s v hv hd
  rw [← below_kept_eq_none_iff hv hd]
  exact (R.below_iff_dropped hm le_rfl (fun _ => rfl)).mp h s v hv hd

end reads

theorem mem_outs (R : KeyRun job ins outs k) (hv : v ∈ outs.versions) (hk : v.key = k) :
    ∃ u ∈ ins.versions, u.key = k ∧ u.seq = v.seq ∧ (v.isMerge → u.isMerge) := by
  have hw : v ∈ outs.versions.filter (·.key = k) := mem_filter.mpr ⟨hv, by simpa⟩
  rw [R.written] at hw
  rcases mem_append.mp hw with hw | hw
  · have hw := R.mem_us (mem_append_left _ (mem_of_mem_filter hw))
    exact ⟨v, (R.mem v hw).1, hk, rfl, id⟩
  · obtain ⟨u, hu, hs⟩ := R.mem_tail hw
    obtain ⟨hi, hk⟩ := R.mem u (R.mem_us (mem_append_right _ hu))
    exact ⟨u, hi, hk, hs⟩

theorem hasSeq_ins (R : KeyRun job ins outs k) (h : outs.HasSeq k s) : ins.HasSeq k s := by
  rcases h with ⟨v, hv, hk, rfl⟩ | h
  · obtain ⟨u, hu, hk, hs, _⟩ := R.mem_outs hv hk
    exact .inl ⟨u, hu, hk, hs⟩
  · exact .inr (R.covered s h)

theorem history_eq_of_safe (R : KeyRun job ins outs k) (hm : job.FoldsOperands ins k f)
    (hs : job.ExpiredSafe ins k) (hb : job.bottom → older = .empty) (h₁ : newer.Newer ins k)
    (h₂ : ins.Newer older k) (h₃ : newer.Newer older k) (hnow : job.now ≤ clock) (hr : job.oldestSnapshot ≤ r) :
    History.below f ((newer ++ outs ++ older).history clock k) none (r + 1) =
      History.below f ((newer ++ ins ++ older).history clock k) none (r + 1) := by
  have hlayers (d : Data K V) (h₁ : newer.Newer d k) (h₂ : d.Newer older k) :
      History.below f ((newer ++ d ++ older).history clock k) none (r + 1) =
        History.below f (newer.history clock k) (History.below f (d.history clock k)
          (History.below f (older.history clock k) none (r + 1)) (r + 1)) (r + 1) := by
    rw [Data.below_append fun s t hs ht => (Data.hasSeq_append.mp hs).elim (h₃ s t · ht) (h₂ s t · ht),
      Data.below_append h₁]
  rw [hlayers outs (fun s t hs ht => h₁ s t hs (R.hasSeq_ins ht))
    (fun s t hs ht => h₂ s t (R.hasSeq_ins hs) ht), hlayers ins h₁ h₂]
  congr 1
  refine R.below_eq_of_safe hm hs hnow (fun hbot => ?_) (Nat.lt_succ_of_le hr)
  rw [hb hbot]
  exact History.below_eq_none fun s _ l hl =>
    absurd (Data.hasSeq_of_history (Option.ne_none_iff_exists'.mpr ⟨l, hl⟩)) Data.not_hasSeq_empty

end KeyRun

section runSpan

variable [LinearOrder K] [Inhabited K] [Inhabited V]
variable {job : FrozenJob K V} {inputs : List (Table K V)} {lower upper : KeyBound K}

-- Let `read` resolve the history of the key in all data that satisfies `P`. Compaction changes no
-- answer of it iff every expired put it drops above the snapshot is safe to drop.
theorem reads_iff_safe {P : Data K V → K → Prop} {f : K → Option V → V → V}
    {read : Data K V → K → Nat → Int → Option V}
    (hread : ∀ d k r clock, P d k →
      read d k r clock = History.below (f k) (d.history clock k) none (r + 1))
    (hnil : ∀ k, P .empty k)
    (happ : ∀ d₁ d₂ k, d₁.Newer d₂ k → P d₁ k → P d₂ k → P (d₁ ++ d₂) k)
    (hi : ∀ t ∈ inputs, t.Valid) (hf : job.filter = none)
    (hr : job.ranges = collectInputRanges inputs)
    (hfo : ∀ k, job.FoldsOperands (tablesData inputs) k (f k))
    (hins : ∀ k, P (tablesData inputs) k)
    (houts : ∀ k, KeyRun job (tablesData inputs) (tablesData (runSpan job inputs lower upper)) k →
      P (tablesData (runSpan job inputs lower upper)) k) :
    (∀ newer older : Data K V, (job.bottom → older = .empty) →
      ∀ k, InSpan lower upper k → P newer k → P older k →
      newer.Newer (tablesData inputs) k → (tablesData inputs).Newer older k → newer.Newer older k →
      ∀ r, job.oldestSnapshot ≤ r → ∀ clock, job.now ≤ clock →
      read (newer ++ tablesData (runSpan job inputs lower upper) ++ older) k r clock =
        read (newer ++ tablesData inputs ++ older) k r clock) ↔
    ∀ k, InSpan lower upper k → job.ExpiredSafe (tablesData inputs) k := by
  constructor
  case mp =>
    intro h k hk
    obtain ⟨R⟩ := exists_keyRun hi hf hr hk
    refine R.safe_of_below_eq (hfo k) fun n hn => ?_
    obtain ⟨r, hrn⟩ : ∃ r, n = r + 1 := ⟨n - 1, by omega⟩
    have hsame := h .empty .empty (fun _ => rfl) k hk (hnil k) (hnil k)
      Data.empty_newer Data.newer_empty Data.newer_empty r (by omega) job.now le_rfl
    rw [Data.empty_append, Data.empty_append, Data.append_empty, Data.append_empty,
      hread _ _ _ _ (houts k R), hread _ _ _ _ (hins k)] at hsame
    exact hrn ▸ hsame
  case mpr =>
    intro hsafe newer older hbot k hk hnewer holder h₁ h₂ h₃ r hr' clock hnow
    obtain ⟨R⟩ := exists_keyRun hi hf hr hk
    have hP (d : Data K V) (hd : P d k) (h₁ : newer.Newer d k) (h₂ : d.Newer older k) :
        P (newer ++ d ++ older) k := by
      refine happ _ _ _ (fun s t hs ht => ?_) (happ _ _ _ h₁ hnewer hd) holder
      exact (Data.hasSeq_append.mp hs).elim (h₃ s t · ht) (h₂ s t · ht)
    rw [hread _ _ _ _ (hP _ (hins k) h₁ h₂), hread _ _ _ _ (hP _ (houts k R)
      (fun s t hs ht => h₁ s t hs (R.hasSeq_ins ht)) (fun s t hs ht => h₂ s t (R.hasSeq_ins hs) ht))]
    exact R.history_eq_of_safe (hfo k) (hsafe k hk) hbot h₁ h₂ h₃ hnow hr'

theorem pointRead_runSpan_iff (hi : ∀ t ∈ inputs, t.Valid) (hf : job.filter = none)
    (hr : job.ranges = collectInputRanges inputs) (hm : ∀ k, (tablesData inputs).MergeFree k) :
    (∀ newer older : Data K V, (job.bottom → older = .empty) →
      ∀ k, InSpan lower upper k → newer.MergeFree k → older.MergeFree k →
      newer.Newer (tablesData inputs) k → (tablesData inputs).Newer older k → newer.Newer older k →
      ∀ r, job.oldestSnapshot ≤ r → ∀ clock, job.now ≤ clock →
      (newer ++ tablesData (runSpan job inputs lower upper) ++ older).pointRead k r clock =
        (newer ++ tablesData inputs ++ older).pointRead k r clock) ↔
    ∀ k, InSpan lower upper k → job.ExpiredSafe (tablesData inputs) k := by
  refine reads_iff_safe (f := fun _ _ x => x) (fun d k r clock h => Data.pointRead_eq_below h)
    (fun k => Data.mergeFree_empty) (fun d₁ d₂ k _ h₁ h₂ v hv => ?_) hi hf hr
    (fun k v hv hk h => absurd h (hm k v hv hk)) hm fun k R v hv hk hvm => ?_
  · exact (mem_append.mp hv).elim (h₁ v) (h₂ v)
  · obtain ⟨u, hu, huk, _, hum⟩ := R.mem_outs hv hk
    exact hm k u hu huk (hum hvm)

def bottomJob (mergeFold : Option (MergeOperator Nat Nat)) : FrozenJob Nat Nat where
  bottom := true
  oldestSnapshot := 5
  now := 100
  partitioner := none
  filter := none
  mergeFold := mergeFold
  ranges := []
  foreignSpans := []
  targetBytes := 1000
  length := fun _ _ => 16

def tableOf (entries : List (Version Nat Nat)) : Table Nat Nat where
  id := 1
  entries := entries
  fragments := []
  minKey := 7
  maxKey := 7
  partition := none
  tier := none
  foreign := false

theorem tableOf_valid (h : entries.Pairwise Version.Before) (hk : ∀ v ∈ entries, v.key = 7) :
    (tableOf entries).Valid where
  sorted := h
  fragmented := .nil
  minKey v hv := (hk v (mem_of_mem_head? hv)).symm
  maxKey v hv := (hk v (mem_of_mem_getLast? hv)).symm
  ordered := le_rfl

theorem pointRead_runSpan_deleted :
    let input := tableOf [⟨7, 10, 50, .put, 1⟩, ⟨7, 3, 0, .delete, 0⟩]
    (∀ k, (bottomJob none).ExpiredSafe (tablesData [input]) k) ∧
    (tablesData (runSpan (bottomJob none) [input] .unbounded .unbounded)).pointRead 7 10 100 =
      (tablesData [input]).pointRead 7 10 100 := by
  intro input
  have hsafe : ∀ k, (bottomJob none).ExpiredSafe (tablesData [input]) k :=
    FrozenJob.expiredSafe_of_absent (by decide)
  have hi : ∀ t ∈ [input], t.Valid := by
    simpa using tableOf_valid (by decide) (by decide)
  have hm : ∀ k, (tablesData [input]).MergeFree k := by
    intro k v hv _
    exact (show ∀ v ∈ (tablesData [input]).versions, ¬v.isMerge by decide) v hv
  refine ⟨hsafe, ?_⟩
  have h := (pointRead_runSpan_iff hi rfl rfl hm).mpr (fun k _ => hsafe k) .empty .empty
    (fun _ => rfl) 7 inSpan_unbounded Data.mergeFree_empty Data.mergeFree_empty Data.empty_newer
    Data.newer_empty Data.newer_empty 10 (by decide) 100 (by decide)
  simpa using h

-- The put at 10 has expired. Once it is dropped, the put at 3 is visible again.
theorem pointRead_resurfaces :
    let input := tableOf [⟨7, 10, 50, .put, 1⟩, ⟨7, 3, 0, .put, 2⟩]
    input.Valid ∧ (bottomJob none).ranges = collectInputRanges [input] ∧
    (tablesData [input]).pointRead 7 10 100 = none ∧
    (tablesData (runSpan (bottomJob none) [input] .unbounded .unbounded)).pointRead 7 10 100 =
      some 2 :=
  ⟨tableOf_valid (by decide) (by decide), by decide, by decide, by decide⟩

-- Merged reads, for a registered operator that meets its contract. The job folds with it, if at all.
theorem mergedRead_runSpan_iff {op : MergeOperator K V} (ha : op.Associative)
    (hop : ∀ o ∈ job.mergeFold, o = op) (hi : ∀ t ∈ inputs, t.Valid) (hf : job.filter = none)
    (hr : job.ranges = collectInputRanges inputs) (hu : ∀ k, (tablesData inputs).Untied k) :
    (∀ newer older : Data K V, (job.bottom → older = .empty) →
      ∀ k, InSpan lower upper k → newer.Untied k → older.Untied k →
      newer.Newer (tablesData inputs) k → (tablesData inputs).Newer older k → newer.Newer older k →
      ∀ r, job.oldestSnapshot ≤ r → ∀ clock, job.now ≤ clock →
      (newer ++ tablesData (runSpan job inputs lower upper) ++ older).mergedRead op k r clock =
        (newer ++ tablesData inputs ++ older).mergedRead op k r clock) ↔
    ∀ k, InSpan lower upper k → job.ExpiredSafe (tablesData inputs) k := by
  refine reads_iff_safe (fun d k r clock h =>
    show d.mergedRead op k r clock = _ from Data.mergedRead_eq_below (ha.folds k) h) (fun k => Data.untied_empty)
    (fun d₁ d₂ k h h₁ h₂ => h₁.append h₂ h) hi hf hr (fun k v hv hk _ => ⟨hu k v hv hk, ?_⟩) hu
    fun k R v hv hk hcov => ?_
  · exact fun o ho => hop o ho ▸ ha.folds k
  · obtain ⟨u, hmem, huk, hs, _⟩ := R.mem_outs hv hk
    exact hu k u hmem huk (hs ▸ R.covered _ hcov)

def sumOperator : MergeOperator Nat Nat where
  fullMerge _ existing operands := existing.getD 0 + operands.sum

theorem sumOperator_associative : sumOperator.Associative := by
  intro k e xs ys _ _
  simp [sumOperator, Nat.add_assoc]

theorem mergedRead_runSpan_deleted :
    let job := bottomJob (some sumOperator)
    let input := tableOf [⟨7, 12, 0, .merge, 5⟩, ⟨7, 10, 50, .put, 1⟩, ⟨7, 3, 0, .delete, 0⟩]
    (∀ k, job.ExpiredSafe (tablesData [input]) k) ∧
    (tablesData (runSpan job [input] .unbounded .unbounded)).mergedRead sumOperator 7 12 100 =
      (tablesData [input]).mergedRead sumOperator 7 12 100 := by
  intro job input
  have hsafe : ∀ k, job.ExpiredSafe (tablesData [input]) k :=
    FrozenJob.expiredSafe_of_absent (by decide)
  have hi : ∀ t ∈ [input], t.Valid := by
    simpa using tableOf_valid (by decide) (by decide)
  have hop : ∀ o ∈ job.mergeFold, o = sumOperator := fun o ho => (Option.some.inj ho).symm
  refine ⟨hsafe, ?_⟩
  have h := (mergedRead_runSpan_iff sumOperator_associative hop hi rfl rfl
    (fun k v _ _ => covered_nil)).mpr (fun k _ => hsafe k) .empty .empty
    (fun _ => rfl) 7 inSpan_unbounded Data.untied_empty Data.untied_empty Data.empty_newer
    Data.newer_empty Data.newer_empty 12 (by decide) 100 (by decide)
  simpa using h

-- Below the operand at 12 the put at 10 has expired. Once it is dropped, the operand composes with the
-- put at 3.
theorem mergedRead_resurfaces :
    let input := tableOf [⟨7, 12, 0, .merge, 5⟩, ⟨7, 10, 50, .put, 1⟩, ⟨7, 3, 0, .put, 2⟩]
    input.Valid ∧ (bottomJob (some sumOperator)).ranges = collectInputRanges [input] ∧
    (tablesData [input]).mergedRead sumOperator 7 12 100 = some 5 ∧
    (tablesData (runSpan (bottomJob (some sumOperator)) [input] .unbounded .unbounded)).mergedRead
      sumOperator 7 12 100 = some 7 :=
  ⟨tableOf_valid (by decide) (by decide), by decide, by decide, by decide⟩

end runSpan

end OndaDb

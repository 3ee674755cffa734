import OndaDb.Compaction.Theorems.Span

namespace OndaDb

open List

variable {K V : Type} [LinearOrder K] [Inhabited V]

namespace PendingFold

structure WellFormed (p : PendingFold K V) : Prop where
  first : p.operands.head?.map Prod.fst = some p.newestSeq
  desc : p.operands.Pairwise fun a b => b.1 < a.1

def Holds (p : PendingFold K V) (w : Version K V) : Prop :=
  w.key = p.key ∧ w.seq ∈ p.operands.map Prod.fst

omit [LinearOrder K] [Inhabited V] in
theorem WellFormed.newestSeq_mem {p : PendingFold K V} (h : p.WellFormed) :
    p.newestSeq ∈ p.operands.map Prod.fst := by
  obtain ⟨a, ha, he⟩ := Option.map_eq_some_iff.mp h.first
  exact mem_map.mpr ⟨a, mem_of_mem_head? ha, he⟩

omit [Inhabited V] in
theorem WellFormed.emitOperands_sorted {p : PendingFold K V} (h : p.WellFormed) :
    (emitOperands p).Pairwise Version.Before := by
  rw [emitOperands, pairwise_map]
  exact h.desc.imp fun h => .inr ⟨rfl, h⟩

omit [LinearOrder K] [Inhabited V] in
theorem holds_emitOperands (hw : w ∈ emitOperands p) : p.Holds w := by
  simp only [emitOperands, mem_map] at hw
  obtain ⟨a, ha, rfl⟩ := hw
  exact ⟨rfl, mem_map.mpr ⟨a, ha, rfl⟩⟩

variable {job : FrozenJob K V}

theorem WellFormed.emitFold {p : PendingFold K V} (h : p.WellFormed) :
    (∀ w ∈ emitFold job p base, p.Holds w) ∧ (emitFold job p base).Pairwise Version.Before := by
  unfold OndaDb.emitFold
  split
  case h_1 => simp
  case h_2 =>
    dsimp only
    split_ifs
    · simp
    · exact ⟨forall_mem_singleton.mpr ⟨rfl, h.newestSeq_mem⟩, pairwise_singleton _ _⟩
    · exact ⟨forall_mem_singleton.mpr ⟨rfl, h.newestSeq_mem⟩, pairwise_singleton _ _⟩

theorem WellFormed.flushPending {p : PendingFold K V} (h : p.WellFormed) :
    (∀ w ∈ flushPending job (some p), p.Holds w) ∧
    (flushPending job (some p)).Pairwise Version.Before := by
  rw [OndaDb.flushPending]
  split
  · exact h.emitFold
  · exact ⟨fun w => holds_emitOperands, h.emitOperands_sorted⟩

end PendingFold

omit [Inhabited V] in
theorem emitVersion_sorted (job : FrozenJob K V) (v : Version K V) (e : Bool) :
    (∀ w ∈ emitVersion job v e, w.key = v.key ∧ w.seq = v.seq) ∧
    (emitVersion job v e).Pairwise Version.Before := by
  unfold emitVersion
  split_ifs <;> simp

namespace SpanState

variable {job : FrozenJob K V} {covering : List (Fragment K)} {s : SpanState K V}

def Waits (pending : Option (PendingFold K V)) (v : Version K V) : Prop :=
  ∀ p ∈ pending, p.WellFormed ∧ ∀ w, p.Holds w → w.Before v

def From (pending : Option (PendingFold K V)) (v w : Version K V) : Prop :=
  w.key = v.key ∧ w.seq = v.seq ∨ ∃ p ∈ pending, p.Holds w

-- What a step writes is in order, comes from the entry or from the fold that was pending, and
-- comes before the fold that it leaves pending.
structure Emits (pending : Option (PendingFold K V)) (v : Version K V) (ws : List (Version K V))
    (pending' : Option (PendingFold K V)) : Prop where
  sorted : ws.Pairwise Version.Before
  source : ∀ w ∈ ws, From pending v w
  left : ∀ p ∈ pending', p.WellFormed ∧
             ∀ w, p.Holds w → From pending v w ∧ ∀ u ∈ ws, u.Before w

theorem keep_emits (h : Waits s.pending v) (hk : ∀ p ∈ s.pending, p.key = v.key) :
    Emits s.pending v (s.keep job v e).1 (s.keep job v e).2.pending := by
  unfold keep
  split
  case isTrue =>
    refine ⟨.nil, by simp, ?_⟩
    simp only [Option.mem_def, Option.some.injEq, forall_eq', not_mem_nil, false_implies,
      implies_true, and_true]
    cases hp : s.pending
    case none =>
      refine ⟨⟨rfl, by simp⟩, fun w hw => .inl ?_⟩
      simpa [PendingFold.Holds] using hw
    case some p =>
      obtain ⟨hwf, hb⟩ := h p hp
      have hlt : ∀ a ∈ p.operands, v.seq < a.1 := by
        intro a ha
        have := hb ⟨p.key, a.1, 0, .merge, a.2⟩ ⟨rfl, mem_map.mpr ⟨a, ha, rfl⟩⟩
        simpa [Version.Before, hk p hp] using this
      refine ⟨⟨?_, ?_⟩, fun w hw => ?_⟩
      · obtain ⟨a, ha, _⟩ := Option.map_eq_some_iff.mp hwf.first
        simp [head?_append, ha, ← hwf.first]
      · exact pairwise_append.mpr ⟨hwf.desc, pairwise_singleton _ _,
          fun a ha b hb => by simpa [mem_singleton.mp hb] using hlt a ha⟩
      · obtain ⟨h₁, h₂⟩ := hw
        simp only [Option.getD_some, map_append, mem_append, map_cons, map_nil,
          mem_singleton] at h₁ h₂
        exact h₂.symm.imp (⟨h₁.trans (hk p hp), ·⟩) fun h₂ => ⟨p, rfl, h₁, h₂⟩
  cases hp : s.pending
  case none =>
    obtain ⟨h₁, h₂⟩ := emitVersion_sorted job v e
    exact ⟨h₂, fun w hw => .inl (h₁ w hw), by simp [hp]⟩
  case some p =>
    obtain ⟨hwf, hb⟩ := h p hp
    dsimp only
    split
    case isTrue =>
      exact ⟨hwf.emitFold.2, fun w hw => .inr ⟨p, rfl, hwf.emitFold.1 w hw⟩, by simp⟩
    obtain ⟨h₁, h₂⟩ := emitVersion_sorted job v e
    refine ⟨pairwise_append.mpr ⟨hwf.emitOperands_sorted, h₂, fun u hu w hw => ?_⟩, ?_, by simp⟩
    · have := hb u (PendingFold.holds_emitOperands hu)
      simpa [Version.Before, h₁ w hw] using this
    · intro w hw
      rcases mem_append.mp hw with hw | hw
      · exact .inr ⟨p, rfl, PendingFold.holds_emitOperands hw⟩
      · exact .inl (h₁ w hw)

theorem retain_emits (h : Waits s.pending v) (hk : ∀ p ∈ s.pending, p.key = v.key) :
    Emits s.pending v (s.retain job covering v).1 (s.retain job covering v).2.pending := by
  have hsame : Emits s.pending v [] s.pending :=
    ⟨.nil, by simp, fun p hp => ⟨(h p hp).1, fun w hw => ⟨.inr ⟨p, hp, hw⟩, by simp⟩⟩⟩
  unfold retain
  split
  case isTrue => exact hsame
  split
  case h_1 => exact hsame
  case h_2 e r _ => exact keep_emits (s := { s with retention := r }) h hk

theorem accept_emits (h : Waits s.pending v) :
    Emits s.pending v (s.accept job covering v).1 (s.accept job covering v).2.pending := by
  by_cases hk : ∀ p ∈ s.pending, p.key = v.key
  case pos =>
    rw [accept_eq_retain hk]
    exact retain_emits h hk
  push Not at hk
  obtain ⟨p, hp, hk⟩ := hk
  have hp : s.pending = some p := hp
  obtain ⟨hwf, hb⟩ := h p hp
  have hacc : s.accept job covering v =
      (flushPending job (some p) ++ ({ s with pending := none }.retain job covering v).1,
        ({ s with pending := none }.retain job covering v).2) := by
    simp [accept, enter, hp, hk]
  have hr : Emits none v ({ s with pending := none }.retain job covering v).1
      ({ s with pending := none }.retain job covering v).2.pending :=
    retain_emits (s := { s with pending := none }) (by simp [Waits]) (by simp)
  have hat : ∀ w, From none v w → w.key = v.key ∧ w.seq = v.seq := by simp [From]
  have hbefore : ∀ u ∈ flushPending job (some p), ∀ w, From none v w → u.Before w := by
    intro u hu w hw
    have := hb u (hwf.flushPending.1 u hu)
    simpa [Version.Before, hat w hw] using this
  rw [hacc, hp]
  refine ⟨pairwise_append.mpr ⟨hwf.flushPending.2, hr.sorted, ?_⟩, ?_, ?_⟩
  · exact fun u hu w hw => hbefore u hu w (hr.source w hw)
  · intro w hw
    rcases mem_append.mp hw with hw | hw
    · exact .inr ⟨p, rfl, hwf.flushPending.1 w hw⟩
    · exact .inl (hat w (hr.source w hw))
  · intro q hq
    refine ⟨(hr.left q hq).1, fun w hw => ?_⟩
    obtain ⟨hf, hu⟩ := (hr.left q hq).2 w hw
    refine ⟨.inl (hat w hf), fun u hu' => ?_⟩
    rcases mem_append.mp hu' with hu' | hu'
    · exact hbefore u hu' w hf
    · exact hu u hu'

theorem writes_before (hs : vs.Pairwise Version.Before)
    (hp : ∀ p ∈ s.pending, p.WellFormed ∧ ∀ w, p.Holds w → ∀ v ∈ vs, w.Before v) :
    (s.writes job covering vs).Pairwise Version.Before ∧
    ∀ w ∈ s.writes job covering vs,
      (∃ v ∈ vs, w.key = v.key ∧ w.seq = v.seq) ∨ ∃ p ∈ s.pending, p.Holds w := by
  induction vs generalizing s
  case nil =>
    rw [writes]
    cases hpend : s.pending
    case none => simp [flushPending]
    case some p =>
      have hwf := (hp p hpend).1
      exact ⟨hwf.flushPending.2, fun w hw => .inr ⟨p, rfl, hwf.flushPending.1 w hw⟩⟩
  case cons v vs hi =>
    obtain ⟨hv, hvs⟩ := pairwise_cons.mp hs
    have he : Emits s.pending v (s.accept job covering v).1 (s.accept job covering v).2.pending :=
      accept_emits fun p hpp => ⟨(hp p hpp).1, fun w hw => (hp p hpp).2 w hw v (by simp)⟩
    have hrest : ∀ w, From s.pending v w → ∀ u ∈ vs, w.Before u := by
      rintro w (⟨h₁, h₂⟩ | ⟨p, hpp, hw⟩) u hu
      · simpa [Version.Before, h₁, h₂] using hv u hu
      · exact (hp p hpp).2 w hw u (mem_cons_of_mem _ hu)
    obtain ⟨hsorted, hsource⟩ := hi hvs fun p hpp =>
      ⟨(he.left p hpp).1, fun w hw => hrest w ((he.left p hpp).2 w hw).1⟩
    rw [writes]
    refine ⟨pairwise_append.mpr ⟨he.sorted, hsorted, fun u hu w hw => ?_⟩, fun w hw => ?_⟩
    · rcases hsource w hw with ⟨x, hx, h₁, h₂⟩ | ⟨p, hpp, hw⟩
      · simpa [Version.Before, h₁, h₂] using hrest u (he.source u hu) x hx
      · exact ((he.left p hpp).2 w hw).2 u hu
    · have hfrom : ∀ w, From s.pending v w → (∃ x ∈ v :: vs, w.key = x.key ∧ w.seq = x.seq) ∨
          ∃ p ∈ s.pending, p.Holds w := fun w => Or.imp_left fun h => ⟨v, by simp, h⟩
      rcases mem_append.mp hw with hw | hw
      · exact hfrom w (he.source w hw)
      · rcases hsource w hw with ⟨x, hx, h⟩ | ⟨p, hpp, hw⟩
        · exact .inl ⟨x, mem_cons_of_mem _ hx, h⟩
        · exact hfrom w ((he.left p hpp).2 w hw).1

end SpanState

theorem spanVersions_before {job : FrozenJob K V} (h : ∀ t ∈ inputs, t.Valid) :
    (spanVersions job inputs lower upper).Pairwise Version.Before := by
  rw [spanVersions_eq]
  exact (SpanState.writes_before (spanStream_sorted h) (by simp [SpanState.start])).1

theorem spanVersions_source {job : FrozenJob K V} (h : ∀ t ∈ inputs, t.Valid)
    (hw : w ∈ spanVersions job inputs lower upper) :
    ∃ v ∈ (tablesData inputs).versions, InSpan lower upper v.key ∧ w.key = v.key ∧ w.seq = v.seq := by
  rw [spanVersions_eq] at hw
  rcases (SpanState.writes_before (spanStream_sorted h) (by simp [SpanState.start])).2 w hw with
    ⟨v, hv, he⟩ | ⟨p, hp, _⟩
  · obtain ⟨hmem, hk⟩ := mem_spanStream h hv
    exact ⟨v, hmem, hk, he⟩
  · simp [SpanState.start] at hp

end OndaDb

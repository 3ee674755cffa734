import OndaDb.Compaction.RunSpan

namespace OndaDb

variable {K V : Type} [LinearOrder K]

def dropCopies : Option (K × Nat) → List (Version K V) → List (Version K V)
  | _,    [] => []
  | prev, v :: vs =>
    if prev = some (v.key, v.seq) then dropCopies prev vs
    else v :: dropCopies (some (v.key, v.seq)) vs

theorem mem_of_mem_dropCopies {vs : List (Version K V)} (h : v ∈ dropCopies prev vs) : v ∈ vs := by
  induction vs generalizing prev
  case nil => simp [dropCopies] at h
  case cons w vs hi =>
    unfold dropCopies at h
    split at h
    case isTrue => exact List.mem_cons_of_mem _ (hi h)
    case isFalse => exact List.mem_cons.mpr ((List.mem_cons.mp h).imp_right hi)

theorem find?_dropCopies {vs : List (Version K V)} (hp : prev ≠ some (k, s)) :
    (dropCopies prev vs).find? (fun v => v.key = k ∧ v.seq = s) =
      vs.find? fun v => v.key = k ∧ v.seq = s := by
  induction vs generalizing prev
  case nil => rfl
  case cons v vs hi =>
    unfold dropCopies
    by_cases hv : v.key = k ∧ v.seq = s
    case pos =>
      obtain ⟨rfl, rfl⟩ := hv
      simp [hp]
    split
    · rw [hi hp, List.find?_cons_of_neg (by simpa using hv)]
    · rw [List.find?_cons_of_neg (by simpa using hv), List.find?_cons_of_neg (by simpa using hv), hi]
      simpa using hv

theorem dropCopies_sorted {vs : List (Version K V)} (h : vs.Pairwise fun v w => ¬w.Before v)
    (hp : ∀ v ∈ vs, ∀ p ∈ prev, p.1 < v.key ∨ p.1 = v.key ∧ v.seq ≤ p.2) :
    (dropCopies prev vs).Pairwise Version.Before ∧
      ∀ v ∈ dropCopies prev vs, ∀ p ∈ prev, p.1 < v.key ∨ p.1 = v.key ∧ v.seq < p.2 := by
  induction vs generalizing prev
  case nil => simp [dropCopies]
  case cons v vs hi =>
    obtain ⟨hv, hvs⟩ := List.pairwise_cons.mp h
    unfold dropCopies
    split
    case isTrue he => exact hi hvs fun w hw => hp w (List.mem_cons_of_mem _ hw)
    case isFalse he =>
      have hn : ∀ w ∈ vs, ∀ p ∈ some (v.key, v.seq), p.1 < w.key ∨ p.1 = w.key ∧ w.seq ≤ p.2 := by
        intro w hw p hp
        cases Option.mem_some.mp hp
        exact Version.not_before.mp (hv w hw)
      obtain ⟨h₁, h₂⟩ := hi hvs hn
      have hd : ∀ w ∈ dropCopies (some (v.key, v.seq)) vs, v.Before w := fun w hw => h₂ w hw _ rfl
      refine ⟨List.pairwise_cons.mpr ⟨hd, h₁⟩, fun w hw p hpp => ?_⟩
      have hlt : p.1 < v.key ∨ p.1 = v.key ∧ v.seq < p.2 := by
        refine (hp v (by simp) p hpp).imp_right fun ⟨h₁, h₂⟩ => ⟨h₁, lt_of_le_of_ne h₂ fun h => he ?_⟩
        rw [Option.mem_def.mp hpp, ← h₁, h]
      rcases List.mem_cons.mp hw with rfl | hw
      · exact hlt
      · exact Version.Before.trans (u := ⟨p.1, p.2, 0, .put, w.value⟩) hlt (hd w hw)

namespace SpanState

variable [Inhabited V]

def writes (job : FrozenJob K V) (covering : List (Fragment K)) (s : SpanState K V) :
    List (Version K V) → List (Version K V)
  | [] => flushPending job s.pending
  | v :: vs => (s.accept job covering v).1 ++ writes job covering (s.accept job covering v).2 vs

variable {job : FrozenJob K V} {covering : List (Fragment K)} {s s' : SpanState K V}

omit [LinearOrder K] in
theorem keep_prev : { s with prev := p }.keep job v e =
    ((s.keep job v e).1, { (s.keep job v e).2 with prev := p }) := by
  unfold keep
  split
  · rfl
  · cases hp : s.pending <;> simp only [hp]
    split <;> rfl

theorem accept_prev : { s with prev := p }.accept job covering v =
    ((s.accept job covering v).1, { (s.accept job covering v).2 with prev := p }) := by
  have hr (s : SpanState K V) : { s with prev := p }.retain job covering v =
      ((s.retain job covering v).1, { (s.retain job covering v).2 with prev := p }) := by
    unfold retain
    split
    · rfl
    · simp only
      split
      · rfl
      · exact keep_prev (s := { s with retention := _ })
  unfold accept enter
  simp only
  split
  · exact congrArg (fun x => (_ ++ x.1, x.2)) (hr { s with pending := none })
  · exact congrArg (fun x => (_ ++ x.1, x.2)) (hr s)

theorem writes_prev : { s with prev := p }.writes job covering vs = s.writes job covering vs := by
  induction vs generalizing s
  case nil => rfl
  case cons v vs hi => rw [writes, accept_prev, hi, writes]

theorem run_eq_writes : s.run job covering vs = s.writes job covering (dropCopies s.prev vs) := by
  induction vs generalizing s
  case nil => rfl
  case cons v vs hi =>
    unfold run dropCopies step
    split
    case isTrue he => simp [hi]
    case isFalse he => rw [accept_prev, hi, writes_prev, writes]

end SpanState

section keys

variable [Inhabited V] {job : FrozenJob K V}

omit [LinearOrder K] [Inhabited V] in
theorem emitOperands_key (h : w ∈ emitOperands p) : w.key = p.key := by
  simp only [emitOperands, List.mem_map] at h
  obtain ⟨_, _, rfl⟩ := h
  rfl

omit [LinearOrder K] in
theorem emitFold_key (h : w ∈ emitFold job p base) : w.key = p.key := by
  unfold emitFold at h
  split at h
  · simp at h
  · simp only at h
    repeat' split at h
    all_goals simp_all

omit [LinearOrder K] in
theorem flushPending_key (h : w ∈ flushPending job pending) : ∃ p ∈ pending, w.key = p.key := by
  cases pending <;> simp only [flushPending, List.not_mem_nil] at h
  case some p =>
    refine ⟨p, rfl, ?_⟩
    split at h
    · exact emitFold_key h
    · exact emitOperands_key h

omit [LinearOrder K] [Inhabited V] in
theorem emitVersion_key (h : w ∈ emitVersion job v e) : w.key = v.key := by
  unfold emitVersion at h
  repeat' split at h
  all_goals simp_all

end keys

namespace SpanState

variable [Inhabited V] {job : FrozenJob K V} {covering : List (Fragment K)} {s s' : SpanState K V}

theorem enter_key (job : FrozenJob K V) (s : SpanState K V) (k : K) :
    (∀ w ∈ (s.enter job k).1, ∃ p ∈ s.pending, p.key ≠ k ∧ w.key = p.key) ∧
    ∀ p ∈ (s.enter job k).2.pending, p ∈ s.pending ∧ p.key = k := by
  unfold enter
  split
  case isTrue h =>
    refine ⟨fun w hw => ?_, by simp⟩
    obtain ⟨p, hp, hk⟩ := flushPending_key hw
    simp only [Option.mem_def.mp hp, Option.any_some, decide_eq_true_eq] at h
    exact ⟨p, hp, h, hk⟩
  case isFalse h =>
    refine ⟨by simp, fun p hp => ⟨hp, ?_⟩⟩
    have hp : s.pending = some p := hp
    simpa [hp] using h

omit [LinearOrder K] in
theorem keep_key (h : ∀ p ∈ s.pending, p.key = v.key) :
    (∀ w ∈ (s.keep job v e).1, w.key = v.key) ∧ ∀ p ∈ (s.keep job v e).2.pending, p.key = v.key := by
  unfold keep
  split
  case isTrue => cases hp : s.pending <;> simp_all
  cases hp : s.pending <;> simp only
  case none => exact ⟨fun w hw => emitVersion_key hw, h⟩
  case some p =>
    have hk := h p hp
    split <;> simp only [Option.mem_def, reduceCtorEq, false_implies, implies_true, and_true]
    case isTrue => exact fun w hw => (emitFold_key hw).trans hk
    intro w hw
    rcases List.mem_append.mp hw with hw | hw
    · exact (emitOperands_key hw).trans hk
    · exact emitVersion_key hw

theorem retain_key (job : FrozenJob K V) (covering : List (Fragment K))
    (h : ∀ p ∈ s.pending, p.key = v.key) :
    (∀ w ∈ (s.retain job covering v).1, w.key = v.key) ∧
    ∀ p ∈ (s.retain job covering v).2.pending, p.key = v.key := by
  unfold retain
  split
  · exact ⟨by simp, h⟩
  · split
    · exact ⟨by simp, h⟩
    · exact keep_key h

theorem accept_key (job : FrozenJob K V) (covering : List (Fragment K)) (s : SpanState K V)
    (v : Version K V) : ∃ ws₁ ws₂, (s.accept job covering v).1 = ws₁ ++ ws₂ ∧
    (∀ w ∈ ws₁, ∃ p ∈ s.pending, p.key ≠ v.key ∧ w.key = p.key) ∧ (∀ w ∈ ws₂, w.key = v.key) ∧
    ∀ p ∈ (s.accept job covering v).2.pending, p.key = v.key := by
  obtain ⟨h₁, h₂⟩ := enter_key job s v.key
  obtain ⟨h₃, h₄⟩ := retain_key job covering fun p hp => (h₂ p hp).right
  exact ⟨_, _, rfl, h₁, h₃, h₄⟩

theorem mem_writes_key (h : w ∈ s.writes job covering vs) :
    (∃ v ∈ vs, w.key = v.key) ∨ ∃ p ∈ s.pending, w.key = p.key := by
  induction vs generalizing s
  case nil => exact .inr (flushPending_key h)
  case cons v vs hi =>
    obtain ⟨ws₁, ws₂, he, h₁, h₂, h₃⟩ := accept_key job covering s v
    rw [writes, he] at h
    simp only [List.append_assoc, List.mem_append] at h
    rcases h with h | h | h
    · obtain ⟨p, hp, _, hk⟩ := h₁ w h
      exact .inr ⟨p, hp, hk⟩
    · exact .inl ⟨v, by simp, h₂ w h⟩
    · rcases hi h with ⟨u, hu, hk⟩ | ⟨p, hp, hk⟩
      · exact .inl ⟨u, List.mem_cons_of_mem _ hu, hk⟩
      · exact .inl ⟨v, by simp, hk.trans (h₃ p hp)⟩

theorem writes_sorted (hs : vs.Pairwise fun v w => v.key ≤ w.key)
    (hp : ∀ p ∈ s.pending, ∀ v ∈ vs, p.key ≤ v.key) :
    (s.writes job covering vs).Pairwise fun v w => v.key ≤ w.key := by
  induction vs generalizing s
  case nil =>
    refine List.pairwise_of_forall_mem_list fun v hv w hw => ?_
    obtain ⟨p, hp, hv⟩ := flushPending_key hv
    obtain ⟨p', hp', hw⟩ := flushPending_key hw
    cases Option.mem_unique hp hp'
    exact (hv.trans hw.symm).le
  case cons v vs hi =>
    obtain ⟨ws₁, ws₂, he, h₁, h₂, h₃⟩ := accept_key job covering s v
    obtain ⟨hv, hvs⟩ := List.pairwise_cons.mp hs
    rw [writes, he, List.append_assoc, List.pairwise_append, List.pairwise_append]
    have hrest : ∀ w ∈ (s.accept job covering v).2.writes job covering vs, v.key ≤ w.key := by
      intro w hw
      rcases mem_writes_key hw with ⟨u, hu, hk⟩ | ⟨p, hp, hk⟩
      · exact hk ▸ hv u hu
      · exact (hk.trans (h₃ p hp)).ge
    have hfst : ∀ w ∈ ws₁, w.key ≤ v.key := by
      intro w hw
      obtain ⟨p, hpp, _, hk⟩ := h₁ w hw
      exact hk ▸ hp p hpp v (by simp)
    refine ⟨?_, ⟨?_, hi hvs fun p hp u hu => (h₃ p hp).trans_le (hv u hu), ?_⟩, ?_⟩
    · refine List.pairwise_of_forall_mem_list fun u hu w hw => ?_
      obtain ⟨p, hp, _, hu⟩ := h₁ u hu
      obtain ⟨p', hp', _, hw⟩ := h₁ w hw
      cases Option.mem_unique hp hp'
      exact (hu.trans hw.symm).le
    · exact List.pairwise_of_forall_mem_list fun u hu w hw => ((h₂ u hu).trans (h₂ w hw).symm).le
    · exact fun u hu w hw => (h₂ u hu).trans_le (hrest w hw)
    · intro u hu w hw
      rcases List.mem_append.mp hw with hw | hw
      · exact (hfst u hu).trans (h₂ w hw).ge
      · exact (hfst u hu).trans (hrest w hw)

theorem writes_congr (h : ∀ v ∈ vs, r.enter v.key = r'.enter v.key) :
    { s with retention := r }.writes job covering vs =
      { s with retention := r' }.writes job covering vs := by
  induction vs generalizing s
  case nil => rfl
  case cons v vs hi =>
    have hd : r.decide job v = r'.decide job v := by
      unfold VersionRetention.decide
      rw [h v (by simp)]
    replace hi (s : SpanState K V) := @hi s fun u hu => h u (List.mem_cons_of_mem _ hu)
    unfold writes accept enter
    simp only
    split <;> unfold retain <;> split <;> simp only [hd, hi s, hi { s with pending := none }]

end SpanState

end OndaDb

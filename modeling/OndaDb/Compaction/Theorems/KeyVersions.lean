import OndaDb.Compaction.Theorems.Group

-- How the loop treats the versions of one user key, given newest first.
namespace OndaDb.SpanState

open List

variable {K V : Type} [LinearOrder K] [Inhabited V]

def dropsExpired (job : FrozenJob K V) (v : Version K V) : Bool :=
  job.bottom && !v.isMerge && !v.tombstone && v.expired job.now

def dropsBase (job : FrozenJob K V) (live : Bool) (v : Version K V) : Bool :=
  (v.tombstone && job.bottom && !live) || dropsExpired job v

def liveAfter (job : FrozenJob K V) : Bool → List (Version K V) → Bool :=
  List.foldl fun live v => if dropsExpired job v then live else v.isMerge

-- The operands at or below the snapshot wait for their base if the job may fold them.
def suffix (job : FrozenJob K V) (ops : List (Version K V)) : Option (PendingFold K V) :=
  if job.mergeFold.isSome
  then ops.head?.map fun v => ⟨v.key, v.seq, ops.map fun v => (v.seq, v.value)⟩
  else none

def closing (job : FrozenJob K V) (live : Bool) (pending : Option (PendingFold K V)) :
    Option (Version K V) → List (Version K V)
  | none => flushPending job pending
  | some b =>
    if dropsBase job live b then flushPending job pending else
      match pending with
      | none => [b]
      | some p =>
        if b.ttl = 0 then emitFold job p (if b.tombstone then none else some b.value)
        else emitOperands p ++ [b]

-- The versions of one key that no range tombstone masks, split where the loop changes phase: those
-- above the snapshot, the operands at or below it, and the rest from the base on.
structure Phases (job : FrozenJob K V) (us above ops rest : List (Version K V)) : Prop where
  eq : us = above ++ (ops ++ rest)
  gt : ∀ v ∈ above, job.oldestSnapshot < v.seq
  operand : ∀ v ∈ ops, v.seq ≤ job.oldestSnapshot ∧ v.isMerge
  le : ∀ v ∈ rest, v.seq ≤ job.oldestSnapshot
  base : ∀ b ∈ rest.head?, ¬b.isMerge

omit [LinearOrder K] [Inhabited V] in
theorem exists_phases (job : FrozenJob K V) (hd : us.Pairwise fun v w => w.seq < v.seq) :
    ∃ above ops rest, Phases job us above ops rest := by
  have hpart : us.Pairwise fun v w =>
      decide (job.oldestSnapshot < w.seq) → decide (job.oldestSnapshot < v.seq) :=
    hd.imp fun h => by simpa using fun h' => h'.trans h
  have hle : ∀ v ∈ us.dropWhile (job.oldestSnapshot < ·.seq), v.seq ≤ job.oldestSnapshot := by
    intro v hv
    rw [dropWhile_eq_filter_not hpart] at hv
    simpa using (mem_filter.mp hv).right
  generalize hr : us.dropWhile (job.oldestSnapshot < ·.seq) = rest at hle
  refine ⟨us.takeWhile (job.oldestSnapshot < ·.seq), rest.takeWhile (·.isMerge),
    rest.dropWhile (·.isMerge), ?_, ?_, ?_, ?_, ?_⟩
  case refine_1 =>
    rw [takeWhile_append_dropWhile, ← hr, takeWhile_append_dropWhile]
  case refine_2 => exact fun v hv => by simpa using mem_takeWhile_imp hv
  case refine_3 =>
    exact fun v hv => ⟨hle v (takeWhile_sublist _ |>.subset hv), mem_takeWhile_imp hv⟩
  case refine_4 => exact fun v hv => hle v (dropWhile_sublist _ |>.subset hv)
  case refine_5 =>
    intro b hb
    have := head?_dropWhile_not (fun v : Version K V => v.isMerge) rest
    rw [Option.mem_def.mp hb] at this
    simpa using this

def keyVersions (job : FrozenJob K V) (above ops : List (Version K V))
    (base : Option (Version K V)) : List (Version K V) :=
  above.filter (!dropsExpired job ·) ++ (if job.mergeFold.isSome then [] else ops) ++
    closing job (liveAfter job false above || !ops.isEmpty) (suffix job ops) base

section decide

variable {job : FrozenJob K V} {v : Version K V}

omit [Inhabited V] in
theorem decide_above (hs : job.oldestSnapshot < v.seq) :
    VersionRetention.decide job ⟨some v.key, false, live⟩ v =
      if dropsExpired job v then (.drop, ⟨some v.key, false, live⟩)
      else (.keep false, ⟨some v.key, false, v.isMerge⟩) := by
  have hs := not_le.mpr hs
  simp only [VersionRetention.decide, VersionRetention.enter, dropsExpired, hs]
  simp [and_assoc]

omit [Inhabited V] in
theorem decide_shadowed (hs : v.seq ≤ job.oldestSnapshot) :
    VersionRetention.decide job ⟨some v.key, true, live⟩ v = (.drop, ⟨some v.key, true, live⟩) := by
  simp [VersionRetention.decide, VersionRetention.enter, hs]

omit [Inhabited V] in
theorem decide_operand (hs : v.seq ≤ job.oldestSnapshot) (hm : v.isMerge) :
    VersionRetention.decide job ⟨some v.key, false, live⟩ v =
      (.keep false, ⟨some v.key, false, true⟩) := by
  simp [VersionRetention.decide, VersionRetention.enter, hs, hm]

omit [Inhabited V] in
theorem decide_base (hs : v.seq ≤ job.oldestSnapshot) (hm : ¬v.isMerge) :
    VersionRetention.decide job ⟨some v.key, false, live⟩ v =
      if dropsBase job live v then (.drop, ⟨some v.key, true, live⟩)
      else (.keep (!v.tombstone && !v.expired job.now), ⟨some v.key, true, false⟩) := by
  simp only [VersionRetention.decide, VersionRetention.enter, dropsBase, dropsExpired, hs, hm]
  cases v.tombstone <;> cases job.bottom <;> cases live <;> cases v.expired job.now <;> simp

end decide

section phases

variable {job : FrozenJob K V} {covering : List (Fragment K)} {s : SpanState K V}
variable {vs xs : List (Version K V)} {pf : Option (PendingFold K V)}

omit [LinearOrder K] [Inhabited V] in
theorem emitVersion_eq (hf : job.filter = none) : emitVersion job v e = [v] := by
  simp [emitVersion, FrozenJob.filterRemoves, hf]

theorem accept_eq_retain (hp : ∀ p ∈ s.pending, p.key = v.key) :
    s.accept job covering v = s.retain job covering v := by
  have he : s.enter job v.key = ([], s) := by
    refine if_neg ?_
    cases h : s.pending <;> simp_all
  simp [accept, he]

theorem writes_above (hf : job.filter = none) (hk : ∀ v ∈ vs, v.key = k)
    (hs : ∀ v ∈ vs, job.oldestSnapshot < v.seq) (hm : ∀ v ∈ vs, ¬job.masks covering v) :
    writes job covering ⟨⟨some k, false, live⟩, none, p⟩ (vs ++ xs) =
      vs.filter (!dropsExpired job ·) ++
        writes job covering ⟨⟨some k, false, liveAfter job live vs⟩, none, p⟩ xs := by
  induction vs generalizing live
  case nil => rfl
  case cons v vs hi =>
    simp only [forall_mem_cons] at hk hs hm
    obtain ⟨rfl, hk⟩ := hk
    rw [cons_append, writes, accept_eq_retain (by simp)]
    simp only [retain, hm.1, decide_above hs.1]
    cases hd : dropsExpired job v
    case true => simp [hd, hi hk hs.2 hm.2, liveAfter]
    case false =>
      have : job.foldable v = false := by simp [FrozenJob.foldable, hs.1]
      simp [hd, keep, this, emitVersion_eq hf, hi hk hs.2 hm.2, liveAfter]

theorem writes_masked (hk : ∀ v ∈ vs, v.key = k) (hm : ∀ v ∈ vs, job.masks covering v)
    (hp : ∀ p ∈ s.pending, p.key = k) :
    s.writes job covering (vs ++ xs) = s.writes job covering xs := by
  induction vs
  case nil => rfl
  case cons v vs hi =>
    simp only [forall_mem_cons] at hk hm
    obtain ⟨rfl, hk⟩ := hk
    rw [cons_append, writes, accept_eq_retain hp]
    simp [retain, hm.1, hi hk hm.2]

theorem writes_shadowed (hk : ∀ v ∈ vs, v.key = k) (hs : ∀ v ∈ vs, v.seq ≤ job.oldestSnapshot)
    (hm : ∀ v ∈ vs, ¬job.masks covering v) (hp : ∀ p ∈ pf, p.key = k) :
    writes job covering ⟨⟨some k, true, live⟩, pf, p⟩ (vs ++ xs) =
      writes job covering ⟨⟨some k, true, live⟩, pf, p⟩ xs := by
  induction vs
  case nil => rfl
  case cons v vs hi =>
    simp only [forall_mem_cons] at hk hs hm
    obtain ⟨rfl, hk⟩ := hk
    rw [cons_append, writes, accept_eq_retain hp]
    simp [retain, hm.1, decide_shadowed hs.1, hi hk hs.2 hm.2]

theorem writes_operands (hf : job.filter = none) (hfold : job.mergeFold = none)
    (hk : ∀ v ∈ vs, v.key = k) (hs : ∀ v ∈ vs, v.seq ≤ job.oldestSnapshot)
    (hm : ∀ v ∈ vs, ¬job.masks covering v) (ho : ∀ v ∈ vs, v.isMerge) :
    writes job covering ⟨⟨some k, false, live⟩, none, p⟩ (vs ++ xs) =
      vs ++ writes job covering ⟨⟨some k, false, live || !vs.isEmpty⟩, none, p⟩ xs := by
  induction vs generalizing live
  case nil => simp
  case cons v vs hi =>
    simp only [forall_mem_cons] at hk hs hm ho
    obtain ⟨rfl, hk⟩ := hk
    rw [cons_append, writes, accept_eq_retain (by simp)]
    simp [retain, hm.1, decide_operand hs.1 ho.1, keep, FrozenJob.foldable, hfold,
      emitVersion_eq hf, hi hk hs.2 hm.2 ho.2]

theorem writes_suffix (hfold : job.mergeFold.isSome) (hk : ∀ v ∈ vs, v.key = k)
    (hs : ∀ v ∈ vs, v.seq ≤ job.oldestSnapshot) (hm : ∀ v ∈ vs, ¬job.masks covering v)
    (ho : ∀ v ∈ vs, v.isMerge) :
    writes job covering ⟨⟨some k, false, live⟩, some ⟨k, n, os⟩, p⟩ (vs ++ xs) =
      writes job covering
        ⟨⟨some k, false, live || !vs.isEmpty⟩, some ⟨k, n, os ++ vs.map fun v => (v.seq, v.value)⟩, p⟩ xs := by
  induction vs generalizing live os
  case nil => simp
  case cons v vs hi =>
    simp only [forall_mem_cons] at hk hs hm ho
    obtain ⟨rfl, hk⟩ := hk
    rw [cons_append, writes, accept_eq_retain (by simp)]
    simp [retain, hm.1, decide_operand hs.1 ho.1, keep, FrozenJob.foldable, hfold, hs.1, ho.1,
      hi hk hs.2 hm.2 ho.2]

theorem writes_ops (hf : job.filter = none) (hk : ∀ v ∈ vs, v.key = k)
    (hs : ∀ v ∈ vs, v.seq ≤ job.oldestSnapshot) (hm : ∀ v ∈ vs, ¬job.masks covering v)
    (ho : ∀ v ∈ vs, v.isMerge) :
    writes job covering ⟨⟨some k, false, live⟩, none, p⟩ (vs ++ xs) =
      (if job.mergeFold.isSome then [] else vs) ++
        writes job covering ⟨⟨some k, false, live || !vs.isEmpty⟩, suffix job vs, p⟩ xs := by
  cases hfold : job.mergeFold
  case none => simp [writes_operands hf hfold hk hs hm ho, suffix, hfold]
  case some op =>
    have hfold : job.mergeFold.isSome := by simp [hfold]
    match vs with
    | [] => simp [suffix]
    | v :: vs =>
      simp only [forall_mem_cons] at hk hs hm ho
      obtain ⟨rfl, hk⟩ := hk
      rw [cons_append, writes, accept_eq_retain (by simp)]
      simp [retain, hm.1, decide_operand hs.1 ho.1, keep, FrozenJob.foldable, hfold, hs.1, ho.1,
        writes_suffix hfold hk hs.2 hm.2 ho.2, suffix]

theorem writes_foreign (hq : ∀ v ∈ vs, v.key ≠ k) (hp : ∀ p ∈ s.pending, p.key = k) :
    (s.writes job covering vs).filter (·.key = k) = flushPending job s.pending := by
  match vs with
  | [] =>
    refine filter_eq_self.mpr fun w hw => ?_
    obtain ⟨p, hpp, hk⟩ := flushPending_key hw
    simpa using hk.trans (hp p hpp)
  | v :: vs =>
    simp only [forall_mem_cons] at hq
    have he : s.enter job v.key = (flushPending job s.pending, { s with pending := none }) := by
      unfold enter
      cases h : s.pending
      case none => cases s; simp_all [flushPending]
      case some p => simp [hp p h, hq.1.symm]
    obtain ⟨h₁, h₂⟩ := retain_key job covering (s := { s with pending := none }) (v := v) (by simp)
    have hself : (flushPending job s.pending).filter (·.key = k) = flushPending job s.pending := by
      refine filter_eq_self.mpr fun w hw => ?_
      obtain ⟨p, hpp, hk⟩ := flushPending_key hw
      simpa using hk.trans (hp p hpp)
    simp only [writes, accept, he, append_assoc, filter_append, hself]
    rw [filter_eq_nil_iff.mpr, filter_eq_nil_iff.mpr, append_nil, append_nil]
    · intro w hw
      rcases mem_writes_key hw with ⟨u, hu, hk⟩ | ⟨p, hp, hk⟩
      · simp [hk, hq.2 u hu]
      · simp [hk, h₂ p hp, hq.1]
    · intro w hw
      simp [h₁ w hw, hq.1]

theorem writes_closing (hf : job.filter = none) (hk : ∀ v ∈ vs, v.key = k)
    (hs : ∀ v ∈ vs, v.seq ≤ job.oldestSnapshot) (hm : ∀ v ∈ vs, ¬job.masks covering v)
    (hb : ∀ b ∈ vs.head?, ¬b.isMerge) (hfold : pf.isSome → job.mergeFold.isSome)
    (hp : ∀ p ∈ pf, p.key = k) (hmk : ∀ v ∈ ms, v.key = k) (hmm : ∀ v ∈ ms, job.masks covering v)
    (hq : ∀ v ∈ xs, v.key ≠ k) :
    (writes job covering ⟨⟨some k, false, live⟩, pf, p⟩ (vs ++ (ms ++ xs))).filter (·.key = k) =
      closing job live pf vs.head? := by
  match vs with
  | [] => rw [nil_append, writes_masked hmk hmm hp, writes_foreign hq hp]; rfl
  | b :: vs =>
    simp only [forall_mem_cons] at hk hs hm
    obtain ⟨rfl, hk⟩ := hk
    have hb : ¬b.isMerge := hb b rfl
    have hrest {live pf} (hp : ∀ p ∈ pf, p.key = b.key) :
        (writes job covering ⟨⟨some b.key, true, live⟩, pf, p⟩ (vs ++ (ms ++ xs))).filter
          (·.key = b.key) = flushPending job pf := by
      rw [writes_shadowed hk hs.2 hm.2 hp, writes_masked hmk hmm hp, writes_foreign hq hp]
    rw [cons_append, writes, accept_eq_retain hp]
    simp only [retain, hm.1, decide_base hs.1 hb, closing, head?_cons]
    cases hd : dropsBase job live b
    case true => simp [hrest hp]
    case false =>
      cases pf
      case none => simp [keep, hb, emitVersion_eq hf, hrest, flushPending]
      case some p =>
        have hfo : job.foldable b := by simp [FrozenJob.foldable, hs.1, hfold]
        have hp : p.key = b.key := hp p rfl
        have hkeep (r : VersionRetention K) (e q) : keep job ⟨r, some p, q⟩ b e =
            (closing job live (some p) (some b), ⟨r, none, q⟩) := by
          simp only [keep, hb, hfo, closing, hd]
          by_cases ht : b.ttl = 0 <;> simp [ht, emitVersion_eq hf]
        simp only [hkeep, Bool.false_eq_true, if_false, filter_append]
        rw [hrest (by simp), flushPending, append_nil, filter_eq_self.mpr]
        · simp [closing, hd]
        · intro w hw
          simp only [closing, hd, Bool.false_eq_true, if_false] at hw
          split at hw
          · simpa using (emitFold_key hw).trans hp
          · rcases mem_append.mp hw with hw | hw
            · simpa using (emitOperands_key hw).trans hp
            · simp_all

theorem writes_group (hf : job.filter = none) (hph : Phases job us above ops rest)
    (hk : ∀ v ∈ us, v.key = k) (hm : ∀ v ∈ us, ¬job.masks covering v)
    (hmk : ∀ v ∈ ms, v.key = k) (hmm : ∀ v ∈ ms, job.masks covering v)
    (hq : ∀ v ∈ xs, v.key ≠ k) :
    (writes job covering ⟨⟨some k, false, false⟩, none, p⟩ (us ++ (ms ++ xs))).filter (·.key = k) =
      keyVersions job above ops rest.head? := by
  obtain ⟨rfl, ha, ho, hr, hb⟩ := hph
  simp only [mem_append, or_imp, forall_and] at hk hm ho
  rw [append_assoc, append_assoc, writes_above hf hk.1 ha hm.1,
    writes_ops hf hk.2.1 ho.1 hm.2.1 ho.2, filter_append, filter_append,
    writes_closing hf hk.2.2 hr hm.2.2 hb ?_ ?_ hmk hmm hq, ← append_assoc, keyVersions]
  · congr 2
    · refine filter_eq_self.mpr fun v hv => ?_
      simpa using hk.1 v (mem_filter.mp hv).left
    · split
      · rfl
      · exact filter_eq_self.mpr fun v hv => by simpa using hk.2.1 v hv
  · intro h
    by_contra hn
    simp [suffix, hn] at h
  · intro p hp
    unfold suffix at hp
    split at hp
    · obtain ⟨v, hv, he⟩ := Option.map_eq_some_iff.mp hp
      exact he ▸ hk.2.1 v (mem_of_head? hv)
    · simp at hp

omit [Inhabited V] in
theorem masks_mono (hk : v.key = w.key) (hs : w.seq ≤ v.seq) (h : job.masks covering v) :
    job.masks covering w := by
  unfold FrozenJob.masks at *
  rw [hk] at h
  cases hc : coveringSeqIn covering w.key job.oldestSnapshot <;> simp_all
  omega

theorem accept_lastKey (job : FrozenJob K V) (covering : List (Fragment K)) (s : SpanState K V)
    (v : Version K V) : (s.accept job covering v).2.retention.lastKey = s.retention.lastKey ∨
    (s.accept job covering v).2.retention.lastKey = some v.key := by
  have he : (s.enter job v.key).2.retention = s.retention := by
    unfold enter
    split <;> rfl
  have hd (r : VersionRetention K) : (r.decide job v).2.lastKey = some v.key := by
    have hr : (r.enter v.key).lastKey = some v.key := by
      unfold VersionRetention.enter
      split <;> simp_all
    unfold VersionRetention.decide
    simp only
    repeat' split
    all_goals simp [hr]
  have hk (s : SpanState K V) e : (s.keep job v e).2.retention = s.retention := by
    unfold keep
    repeat' split
    all_goals rfl
  unfold accept retain
  simp only
  split
  · exact .inl (by rw [he])
  · have hd := hd (s.enter job v.key).2.retention
    split <;> rename_i h <;> rw [h] at hd
    · exact .inr hd
    · exact .inr (by rw [hk]; exact hd)

theorem writes_filter_nil (h : ∀ v ∈ vs, v.key ≠ k) (hp : ∀ p ∈ s.pending, p.key ≠ k) :
    (s.writes job covering vs).filter (·.key = k) = [] := by
  refine filter_eq_nil_iff.mpr fun w hw => ?_
  rcases mem_writes_key hw with ⟨v, hv, hk⟩ | ⟨p, hpp, hk⟩
  · simpa [hk] using h v hv
  · simpa [hk] using hp p hpp

omit [LinearOrder K] in
theorem Phases.nil (h : Phases job [] above ops rest) : keyVersions job above ops rest.head? = [] := by
  have := h.eq.symm
  simp only [append_eq_nil_iff] at this
  obtain ⟨rfl, rfl, rfl⟩ := this
  simp [keyVersions, suffix, closing, flushPending]

theorem writes_fresh (hvk : v.key = k) (hp : ∀ p ∈ s.pending, p.key ≠ k)
    (hl : ∀ l ∈ s.retention.lastKey, ∀ u ∈ v :: vs, l < u.key) :
    (s.writes job covering (v :: vs)).filter (·.key = k) =
      (writes job covering ⟨⟨some k, false, false⟩, none, s.prev⟩ (v :: vs)).filter (·.key = k) := by
  have hflush : (flushPending job s.pending).filter (·.key = k) = [] := by
    refine filter_eq_nil_iff.mpr fun w hw => ?_
    obtain ⟨p, hpp, hk⟩ := flushPending_key hw
    simpa [hk] using hp p hpp
  have he : s.enter job v.key = (flushPending job s.pending, { s with pending := none }) := by
    unfold enter
    cases h : s.pending
    case none => cases s; simp_all [flushPending]
    case some p => simp [hvk, hp p h]
  have hpend : (s.writes job covering (v :: vs)).filter (·.key = k) =
      ({ s with pending := none }.writes job covering (v :: vs)).filter (·.key = k) := by
    rw [writes, writes, accept_eq_retain (s := { s with pending := none }) (by simp), accept, he]
    simp [filter_append, hflush]
  rw [hpend]
  congr 1
  refine writes_congr (s := ⟨.new, none, s.prev⟩) fun u hu => ?_
  have hne : s.retention.lastKey ≠ some u.key := fun h => lt_irrefl _ (hl u.key h u hu)
  by_cases huk : k = u.key <;> simp [VersionRetention.enter, hne, huk]

theorem writes_filter_head (hf : job.filter = none) (hs : (v :: vs).Pairwise Version.Before)
    (hvk : v.key = k)
    (hph : Phases job ((v :: vs).filter fun v => v.key = k ∧ !job.masks covering v) above ops rest)
    (hp : ∀ p ∈ s.pending, p.key ≠ k) (hl : ∀ l ∈ s.retention.lastKey, l < k) :
    (s.writes job covering (v :: vs)).filter (·.key = k) = keyVersions job above ops rest.head? := by
  have hge : ∀ u ∈ v :: vs, k ≤ u.key := by
    intro u hu
    rcases mem_cons.mp hu with rfl | hu
    · exact hvk.ge
    · exact hvk ▸ ((pairwise_cons.mp hs).left u hu).elim le_of_lt fun h => h.1.le
  rw [writes_fresh hvk hp fun l hll u hu => (hl l hll).trans_le (hge u hu)]
  have hkey : (v :: vs).Pairwise fun a b => decide (b.key = k) → decide (a.key = k) := by
    refine List.Pairwise.imp_of_mem (fun {a b} ha _ hab hb => ?_) hs
    simp only [decide_eq_true_eq] at hb ⊢
    exact le_antisymm (hb ▸ hab.elim le_of_lt fun h => h.1.le) (hge a ha)
  have hmask : ((v :: vs).filter (·.key = k)).Pairwise fun a b =>
      !job.masks covering b → !job.masks covering a := by
    refine List.Pairwise.imp_of_mem (fun {a b} ha hb hab => ?_) (hs.filter _)
    have ha : a.key = k := by simpa using (mem_filter.mp ha).right
    have hb : b.key = k := by simpa using (mem_filter.mp hb).right
    rcases hab with h | ⟨h₁, h₂⟩
    · exact absurd (ha.trans hb.symm) h.ne
    · intro hnb
      by_contra hna
      simp [masks_mono h₁ h₂.le (by simpa using hna)] at hnb
  rw [← takeWhile_append_dropWhile (p := (·.key = k)) (l := v :: vs),
    takeWhile_eq_filter hkey, dropWhile_eq_filter_not hkey,
    ← takeWhile_append_dropWhile (p := (!job.masks covering ·)) (l := (v :: vs).filter _),
    takeWhile_eq_filter hmask, dropWhile_eq_filter_not hmask, append_assoc]
  refine writes_group hf (by simpa [filter_filter, Bool.and_comm] using hph) ?_ ?_ ?_ ?_ ?_
  all_goals simp +contextual [mem_filter]

theorem writes_filter (hf : job.filter = none) (hs : vs.Pairwise Version.Before)
    (hph : Phases job (vs.filter fun v => v.key = k ∧ !job.masks covering v) above ops rest)
    (hp : ∀ p ∈ s.pending, p.key ≠ k) (hl : ∀ l ∈ s.retention.lastKey, l < k) :
    (s.writes job covering vs).filter (·.key = k) = keyVersions job above ops rest.head? := by
  by_cases hn : ∀ v ∈ vs, v.key ≠ k
  case pos =>
    have hnil : (vs.filter fun v => v.key = k ∧ !job.masks covering v) = [] :=
      filter_eq_nil_iff.mpr fun v hv => by simp [hn v hv]
    rw [hnil] at hph
    rw [writes_filter_nil hn hp, hph.nil]
  induction vs generalizing s
  case nil => simp at hn
  case cons v vs hi =>
    obtain ⟨hv, hvs⟩ := pairwise_cons.mp hs
    by_cases hvk : v.key = k
    case neg =>
      obtain ⟨ws₁, ws₂, he, h₁, h₂, h₃⟩ := accept_key job covering s v
      have hlt : v.key < k := by
        simp only [forall_mem_cons, hvk, ne_eq, not_false_eq_true, true_and, not_forall,
          Decidable.not_not] at hn
        obtain ⟨u, hu, huk⟩ := hn
        rcases hv u hu with h | ⟨h, _⟩
        · exact huk ▸ h
        · exact absurd (h.trans huk) hvk
      rw [writes, filter_append, he, filter_append]
      rw [filter_eq_nil_iff.mpr, filter_eq_nil_iff.mpr, nil_append, nil_append]
      · refine hi hvs (by simpa [hvk] using hph) (fun p hp => h₃ p hp ▸ hvk) ?_ (by simpa [hvk] using hn)
        intro l hll
        rcases accept_lastKey job covering s v with h | h
        · exact hl l (h ▸ hll)
        · cases Option.mem_some.mp (h ▸ hll)
          exact hlt
      · intro w hw
        simp [h₂ w hw, hvk]
      · intro w hw
        obtain ⟨p, hpp, _, hk⟩ := h₁ w hw
        simpa [hk] using hp p hpp
    case pos => exact writes_filter_head hf hs hvk hph hp hl

end phases

end OndaDb.SpanState

import OndaDb.Parts.Relocate

namespace OndaDb.Parts

open List

section

variable {R B : Type} {place : Backend → String → R} {ts : Tiers} {t : Table B}

theorem Tiers.pathFor_of_object_eq_none (h : t.object = none) :
    ts.pathFor place t ext = ⟨ts.rootAt place t.tier, cfDirName t.cf, .table t.id ext⟩ := by
  unfold pathFor
  rw [h]
  cases t.tier <;> rfl

theorem Tiers.id_eq_of_name {id : Nat} (h : (ts.pathFor place t ext).name = .table id ext') : t.id = id ∧ ext = ext' := by
  unfold pathFor at h
  split at h <;> cases h <;> exact ⟨rfl, rfl⟩

theorem cfDirName_inj (h : cfDirName cf = cfDirName cf') : cf = cf' :=
  (String.append_right_inj _).mp h

theorem manifestTier_eq (hd : ∀ t ∈ catalog, ∀ t' ∈ catalog, t.id = t'.id → t = t') (ht : t ∈ catalog) :
    manifestTier catalog t.cf t.id = some t.tier := by
  unfold manifestTier
  have hmem : t ∈ (catalog.filter (·.cf = t.cf)).reverse := by simp [ht]
  cases hf : (catalog.filter (·.cf = t.cf)).reverse.find? (·.id = t.id)
  case none => exact absurd (find?_eq_none.mp hf t hmem) (by simp)
  case some t' =>
    have hid := find?_some hf
    rw [decide_eq_true_eq] at hid
    have hc : t' ∈ catalog := (mem_filter.mp (mem_reverse.mp (mem_of_find?_eq_some hf))).left
    rw [hd t' hc t ht hid]
    rfl

theorem not_misplaced [DecidableEq R] (hd : ∀ t ∈ catalog, ∀ t' ∈ catalog, t.id = t'.id → t = t')
    (ht : t ∈ catalog) (hs : t.object.isSome → ts.tierIsShared t.tier) (ha : ts.SweepsApart place t)
    (hloc : location ∈ ts.orphanSweepLocations) (hro : ¬(ts.storageFor location).isReadOnly)
    (hl : (⟨ts.rootAt place location, cfDirName cf, .table i ext⟩ : Loc R) = ts.pathFor place t ext') :
    ¬sstIsMisplaced (manifestTier catalog cf i) location := by
  obtain ⟨rfl, rfl⟩ := Tiers.id_eq_of_name (congrArg Loc.name hl).symm
  have hobj : t.object = none := by
    by_contra ho
    have hs := hs (Option.isSome_iff_ne_none.mpr ho)
    unfold Tiers.pathFor at hl
    split at hl
    case h_1 hnone => rw [hnone] at hs; cases hs
    case h_2 => cases congrArg Loc.name hl
    case h_3 hno => exact ho hno
  rw [Tiers.pathFor_of_object_eq_none hobj] at hl
  obtain rfl := cfDirName_inj (congrArg Loc.dir hl)
  obtain rfl := ha (by rw [hobj]; rfl) location hloc hro (congrArg Loc.root hl)
  rw [manifestTier_eq hd ht]
  exact fun hne => of_decide_eq_true hne rfl

theorem Intact.of_lookup [DecidableEq R] (h : Intact place ts files t)
    (hf : ∀ ext, (t.content ext).isSome → files'.lookup (ts.pathFor place t ext) = files.lookup (ts.pathFor place t ext)) :
    Intact place ts files' t := by
  intro ext b hb
  rw [hf ext (by rw [hb]; rfl)]
  exact h ext b hb

end

namespace State

variable {R B : Type} {place : Backend → String → R} {s : State R B}

theorem mem_locsOf : l ∈ s.locsOf place t ↔ ∃ ext, (t.content ext).isSome ∧ l = s.tiers.pathFor place t ext := by
  constructor
  · intro h
    rcases mem_cons.mp h with rfl | h
    · exact ⟨.klog, rfl, rfl⟩
    · rw [Option.mem_toList, Option.map_eq_some_iff] at h
      obtain ⟨b, hb, rfl⟩ := h
      exact ⟨.vlog, by rw [Table.content, hb]; rfl, rfl⟩
  · rintro ⟨ext, hc, rfl⟩
    cases ext
    case klog => exact mem_cons_self
    case vlog =>
      obtain ⟨b, hb⟩ := Option.isSome_iff_exists.mp hc
      refine mem_cons_of_mem _ ?_
      rw [Option.mem_toList, Option.map_eq_some_iff]
      exact ⟨b, hb, rfl⟩

theorem mem_waiting :
    l ∈ s.waiting ↔ l ∈ s.retiring ∨ l ∈ s.pending ∨ l ∈ s.dispatched ∨ l ∈ s.queue := by
  simp only [waiting, mem_append, or_assoc]

-- A step that moves deletion tasks around or touches files only.
structure Quiet (s s' : State R B) : Prop where
  catalog : s'.catalog = s.catalog
  staged : s'.staged = s.staged
  moves : s'.moves = s.moves
  tiers : s'.tiers = s.tiers
  phase : s'.phase = s.phase
  nonce : s'.nonce = s.nonce
  nextFileId : s'.nextFileId = s.nextFileId
  waiting : ∀ l ∈ s'.waiting, l ∈ s.waiting

namespace Quiet

variable [DecidableEq R] [DecidableEq B]

theorem copyStart : Quiet s (s.exec place (.copyStart m t ext)) := by
  simp only [exec]
  split <;> exact ⟨rfl, rfl, rfl, rfl, rfl, rfl, rfl, fun _ => id⟩

theorem sweep : Quiet s (s.exec place (.sweep cf location i ext)) := by
  simp only [exec]
  split <;> exact ⟨rfl, rfl, rfl, rfl, rfl, rfl, rfl, fun _ => id⟩

theorem pause : Quiet s (s.exec place .pause) :=
  ⟨rfl, rfl, rfl, rfl, rfl, rfl, rfl, fun _ => id⟩

theorem resume : Quiet s (s.exec place .resume) := by
  simp only [exec]
  split <;> refine ⟨rfl, rfl, rfl, rfl, rfl, rfl, rfl, fun l hl => ?_⟩
  · simp only [mem_waiting, not_mem_nil, mem_append] at hl ⊢
    tauto
  · exact hl

theorem retire (h : l ∈ s.retiring) : Quiet s (s.exec place (.retire l)) := by
  simp only [exec]
  split <;> refine ⟨rfl, rfl, rfl, rfl, rfl, rfl, rfl, fun l' hl => ?_⟩
  all_goals
    simp only [mem_waiting, mem_append, mem_singleton] at hl ⊢
    rcases hl with hl | hl | hl | hl
    · exact .inl (mem_of_mem_erase hl)
    all_goals grind

theorem dispatch (h : l ∈ s.dispatched) : Quiet s (s.exec place (.dispatch l)) := by
  simp only [exec]
  split <;> refine ⟨rfl, rfl, rfl, rfl, rfl, rfl, rfl, fun l' hl => ?_⟩
  all_goals
    simp only [mem_waiting, remove, mem_append, mem_singleton] at hl ⊢
    rcases hl with hl | hl | hl | hl
    case inr.inr.inl => exact .inr (.inr (.inl (mem_of_mem_erase hl)))
    all_goals grind

theorem work : Quiet s (s.exec place .work) := by
  simp only [exec]
  split
  case h_1 l rest hq =>
    refine ⟨rfl, rfl, rfl, rfl, rfl, rfl, rfl, fun l' hl => ?_⟩
    simp only [mem_waiting, remove, hq, mem_cons] at hl ⊢
    tauto
  case h_2 => exact ⟨rfl, rfl, rfl, rfl, rfl, rfl, rfl, fun _ => id⟩

end Quiet

structure Named (s : State R B) : Prop where
  distinct : ∀ t ∈ s.catalog, ∀ t' ∈ s.catalog, t.id = t'.id → t = t'
  unlisted : ∀ t ∈ s.staged, ∀ t' ∈ s.catalog, t'.id ≠ t.id
  single : ∀ t ∈ s.staged, ∀ t' ∈ s.staged, t'.id = t.id → t' = t
  fresh : (∀ t ∈ s.catalog, t.id < s.nextFileId) ∧ ∀ t ∈ s.staged, t.id < s.nextFileId
  plain : ∀ t ∈ s.staged, t.object = none
  shared : s.phase ≠ .closed → ∀ t ∈ s.catalog, t.object.isSome → s.tiers.tierIsShared t.tier
  moving : ∀ m ∈ s.moves, m.tables ≠ [] ∧ ∀ t ∈ m.tables, t ∈ s.catalog ∧ ¬s.tiers.tierIsShared t.tier
  disjoint : s.moves.Pairwise fun m m' => ∀ t ∈ m.tables, t ∉ m'.tables
  idle : s.phase ≠ .running → s.staged = [] ∧ s.moves = [] ∧ s.waiting = []

namespace Named

theorem atRest (h : s.AtRest) : s.Named where
  __ := h
  unlisted := by simp [h.staged]
  single := by simp [h.staged]
  fresh := ⟨h.fresh, by simp [h.staged]⟩
  plain := by simp [h.staged]
  shared := fun hne => absurd h.phase hne
  moving := by simp [h.moves]
  disjoint := h.moves ▸ .nil
  idle := fun _ => ⟨h.staged, h.moves, h.waiting⟩

theorem running_of_mem_moves (h : s.Named) (hm : m ∈ s.moves) : s.phase = .running := by
  by_contra hne
  rw [(h.idle hne).right.left] at hm
  cases hm

theorem running_of_mem_staged (h : s.Named) (ht : t ∈ s.staged) : s.phase = .running := by
  by_contra hne
  rw [(h.idle hne).left] at ht
  cases ht

theorem object_eq_none (h : s.Named) (hm : m ∈ s.moves) (ht : t ∈ m.tables) : t.object = none := by
  obtain ⟨hc, hs⟩ := (h.moving m hm).right t ht
  by_contra ho
  have hr := h.running_of_mem_moves hm
  exact hs (h.shared (by rw [hr]; exact Phase.noConfusion) t hc (Option.isSome_iff_ne_none.mpr ho))

variable [DecidableEq B]

theorem disjoint_of_mem_erase (h : s.Named) (hm : m ∈ s.moves) (hm' : m' ∈ s.moves.erase m) (ht : t ∈ m'.tables) :
    t ∉ m.tables := by
  have hp := (perm_cons_erase hm).pairwise h.disjoint fun hd t ht' ht => hd t ht ht'
  exact fun htm => (pairwise_cons.mp hp).left m' hm' t htm ht

theorem move_unique (h : s.Named) (hm : m ∈ s.moves) (hm' : m' ∈ s.moves) (ht : t ∈ m.tables) (ht' : t ∈ m'.tables) :
    m' = m := by
  by_contra hne
  exact h.disjoint_of_mem_erase hm ((mem_erase_of_ne hne).mpr hm') ht' ht

variable [DecidableEq R]

theorem edit (h : s.Named) (he : s.Enabled place (.edit adds drops)) : (s.exec place (.edit adds drops)).Named := by
  obtain ⟨hrun, hadds, hdrops⟩ := he
  have hmem {t : Table B} (ht : t ∈ (s.exec place (.edit adds drops)).catalog) :
      (t ∈ s.catalog ∧ t ∉ drops) ∨ t ∈ adds := by
    rcases mem_append.mp ht with ht | ht
    · exact .inl ⟨(mem_filter.mp ht).left, of_decide_eq_true (mem_filter.mp ht).right⟩
    · exact .inr ht
  have hstaged {t : Table B} (ht : t ∈ (s.exec place (.edit adds drops)).staged) : t ∈ s.staged ∧ t ∉ adds :=
    ⟨(mem_filter.mp ht).left, of_decide_eq_true (mem_filter.mp ht).right⟩
  constructor
  case distinct =>
    intro t ht t' ht' hid
    rcases hmem ht with ⟨ht, _⟩ | ht <;> rcases hmem ht' with ⟨ht', _⟩ | ht'
    · exact h.distinct t ht t' ht' hid
    · exact absurd hid (h.unlisted t' (hadds t' ht') t ht)
    · exact absurd hid.symm (h.unlisted t (hadds t ht) t' ht')
    · exact (h.single t (hadds t ht) t' (hadds t' ht') hid.symm).symm
  case unlisted =>
    intro t ht t' ht'
    obtain ⟨ht, hna⟩ := hstaged ht
    rcases hmem ht' with ⟨ht', _⟩ | ht'
    · exact h.unlisted t ht t' ht'
    · intro hid
      exact hna (h.single t ht t' (hadds t' ht') hid ▸ ht')
  case single => exact fun t ht t' ht' => h.single t (hstaged ht).left t' (hstaged ht').left
  case fresh =>
    refine ⟨fun t ht => ?_, fun t ht => h.fresh.right t (hstaged ht).left⟩
    rcases hmem ht with ⟨ht, _⟩ | ht
    · exact h.fresh.left t ht
    · exact h.fresh.right t (hadds t ht)
  case plain => exact fun t ht => h.plain t (hstaged ht).left
  case shared =>
    intro hne t ht ho
    rcases hmem ht with ⟨ht, _⟩ | ht
    · exact h.shared hne t ht ho
    · rw [h.plain t (hadds t ht)] at ho
      cases ho
  case moving =>
    intro m hm
    refine ⟨(h.moving m hm).left, fun t ht => ?_⟩
    obtain ⟨hc, hs⟩ := (h.moving m hm).right t ht
    refine ⟨mem_append_left _ (mem_filter.mpr ⟨hc, decide_eq_true fun hd => ?_⟩), hs⟩
    exact (hdrops t hd).right m hm ht
  case disjoint => exact h.disjoint
  case idle => exact fun hne => absurd hrun hne

theorem moveStart (h : s.Named) (he : s.Enabled place (.moveStart tables target)) :
    (s.exec place (.moveStart tables target)).Named := by
  obtain ⟨hrun, hne, _, _, ht⟩ := he
  refine ⟨h.distinct, h.unlisted, h.single, h.fresh, h.plain, h.shared, ?_, ?_, fun hn => absurd hrun hn⟩
  · refine forall_mem_cons.mpr ⟨⟨hne, fun t hm => ?_⟩, h.moving⟩
    obtain ⟨hc, _, hs, _⟩ := ht t hm
    exact ⟨hc, hs⟩
  · refine pairwise_cons.mpr ⟨fun m hm t htm => ?_, h.disjoint⟩
    obtain ⟨_, _, _, hd⟩ := ht t htm
    exact hd m hm

theorem copyEnd (h : s.Named) (he : s.Enabled place (.copyEnd m t ext)) :
    (s.exec place (.copyEnd m t ext)).Named := by
  obtain ⟨hm, _⟩ := he
  refine ⟨h.distinct, h.unlisted, h.single, h.fresh, h.plain, h.shared, ?_, ?_,
    fun hn => absurd (h.running_of_mem_moves hm) hn⟩
  · exact forall_mem_cons.mpr ⟨h.moving m hm, fun m' hm' => h.moving m' (mem_of_mem_erase hm')⟩
  · refine pairwise_cons.mpr ⟨fun m' hm' t ht ht' => ?_, h.disjoint.sublist erase_sublist⟩
    exact h.disjoint_of_mem_erase hm hm' ht' ht

theorem moveFail (h : s.Named) (hm : m ∈ s.moves) : (s.exec place (.moveFail m)).Named :=
  ⟨h.distinct, h.unlisted, h.single, h.fresh, h.plain, h.shared,
    fun m' hm' => h.moving m' (mem_of_mem_erase hm'), h.disjoint.sublist erase_sublist,
    fun hn => absurd (h.running_of_mem_moves hm) hn⟩

omit [DecidableEq R] in
theorem exists_of_mem_flip {m : Move B} {f : Table B → Table B}
    (ht : t ∈ s.catalog.map fun t => if t ∈ m.tables then f t else t) :
    ∃ t₀ ∈ s.catalog, (t₀ ∈ m.tables ∧ t = f t₀) ∨ (t₀ ∉ m.tables ∧ t = t₀) := by
  obtain ⟨t₀, ht₀, rfl⟩ := mem_map.mp ht
  refine ⟨t₀, ht₀, ?_⟩
  split
  case isTrue hm => exact .inl ⟨hm, rfl⟩
  case isFalse hm => exact .inr ⟨hm, rfl⟩

theorem flip (h : s.Named) (hm : m ∈ s.moves) : (s.exec place (.flip m)).Named := by
  have hrun := h.running_of_mem_moves hm
  have hid {t t₀ : Table B} (ht : (t₀ ∈ m.tables ∧ t = s.relocated m.target t₀) ∨ (t₀ ∉ m.tables ∧ t = t₀)) :
      t.id = t₀.id := by
    rcases ht with ⟨_, rfl⟩ | ⟨_, rfl⟩ <;> rfl
  constructor
  case distinct =>
    intro t ht t' ht' he
    obtain ⟨t₀, hc, hf⟩ := exists_of_mem_flip ht
    obtain ⟨t₀', hc', hf'⟩ := exists_of_mem_flip ht'
    rw [hid hf, hid hf'] at he
    cases h.distinct t₀ hc t₀' hc' he
    rcases hf with ⟨hin, rfl⟩ | ⟨hin, rfl⟩ <;> rcases hf' with ⟨hin', rfl⟩ | ⟨hin', rfl⟩
    · rfl
    · exact absurd hin hin'
    · exact absurd hin' hin
    · rfl
  case unlisted =>
    intro t ht t' ht'
    obtain ⟨t₀, hc, hf⟩ := exists_of_mem_flip ht'
    rw [hid hf]
    exact h.unlisted t ht t₀ hc
  case single => exact h.single
  case fresh =>
    refine ⟨fun t ht => ?_, h.fresh.right⟩
    obtain ⟨t₀, hc, hf⟩ := exists_of_mem_flip ht
    rw [hid hf]
    exact h.fresh.left t₀ hc
  case plain => exact h.plain
  case shared =>
    intro hne t ht ho
    obtain ⟨t₀, hc, ⟨_, rfl⟩ | ⟨_, rfl⟩⟩ := exists_of_mem_flip ht
    · change s.tiers.tierIsShared m.target
      by_contra hs
      rw [relocated, if_neg hs] at ho
      cases ho
    · exact h.shared hne t hc ho
  case moving =>
    intro m' hm'
    obtain ⟨hne, htab⟩ := h.moving m' (mem_of_mem_erase hm')
    refine ⟨hne, fun t ht => ⟨mem_map.mpr ⟨t, (htab t ht).left, ?_⟩, (htab t ht).right⟩⟩
    exact if_neg (h.disjoint_of_mem_erase hm hm' ht)
  case disjoint => exact h.disjoint.sublist erase_sublist
  case idle => exact fun hn => absurd hrun hn

theorem stage (h : s.Named) (he : s.Enabled place (.stage cf klog vlog)) :
    (s.exec place (.stage cf klog vlog)).Named := by
  constructor
  case distinct => exact h.distinct
  case unlisted =>
    exact forall_mem_cons.mpr ⟨fun t' ht' => Nat.ne_of_lt (h.fresh.left t' ht'), h.unlisted⟩
  case single =>
    refine forall_mem_cons.mpr ⟨forall_mem_cons.mpr ⟨fun _ => rfl, fun t' ht' hid => ?_⟩,
      fun t ht => forall_mem_cons.mpr ⟨fun hid => ?_, h.single t ht⟩⟩
    · exact absurd hid (Nat.ne_of_lt (h.fresh.right t' ht'))
    · exact absurd hid (Nat.ne_of_gt (h.fresh.right t ht))
  case fresh =>
    refine ⟨fun t ht => (h.fresh.left t ht).trans (Nat.lt_succ_self _),
      forall_mem_cons.mpr ⟨Nat.lt_succ_self _, fun t ht => ?_⟩⟩
    exact (h.fresh.right t ht).trans (Nat.lt_succ_self _)
  case plain => exact forall_mem_cons.mpr ⟨rfl, h.plain⟩
  case shared => exact h.shared
  case moving => exact h.moving
  case disjoint => exact h.disjoint
  case idle => exact fun hn => absurd he.left hn

theorem abandon (h : s.Named) (ht : t ∈ s.staged) : (s.exec place (.abandon t)).Named := by
  have hs {t' : Table B} (ht' : t' ∈ s.staged.filter (· ≠ t)) : t' ∈ s.staged := (mem_filter.mp ht').left
  exact ⟨h.distinct, fun t' ht' => h.unlisted t' (hs ht'),
    fun t' ht' t'' ht'' => h.single t' (hs ht') t'' (hs ht''),
    ⟨h.fresh.left, fun t' ht' => h.fresh.right t' (hs ht')⟩, fun t' ht' => h.plain t' (hs ht'), h.shared, h.moving,
    h.disjoint, fun hn => absurd (h.running_of_mem_staged ht) hn⟩

omit [DecidableEq B] [DecidableEq R] in
theorem of_quiet (h : s.Named) (hq : Quiet s s') : s'.Named := by
  obtain ⟨hc, hst, hm, ht, hp, _, hn, hw⟩ := hq
  constructor
  case distinct => exact hc ▸ h.distinct
  case unlisted => exact hc ▸ hst ▸ h.unlisted
  case single => exact hst ▸ h.single
  case fresh => exact hc ▸ hst ▸ hn ▸ h.fresh
  case plain => exact hst ▸ h.plain
  case shared => exact hc ▸ ht ▸ hp ▸ h.shared
  case moving => exact hc ▸ hm ▸ ht ▸ h.moving
  case disjoint => exact hm ▸ h.disjoint
  case idle =>
    intro hne
    rw [hp] at hne
    obtain ⟨h₁, h₂, h₃⟩ := h.idle hne
    rw [h₃] at hw
    exact ⟨hst ▸ h₁, hm ▸ h₂, eq_nil_iff_forall_not_mem.mpr fun l hl => not_mem_nil (hw l hl)⟩

theorem exec (h : s.Named) (he : s.Enabled place e) (hc : s.Clear place e) : (s.exec place e).Named := by
  cases e
  case stage => exact h.stage he
  case abandon => exact h.abandon he
  case edit => exact h.edit he
  case moveStart => exact h.moveStart he
  case copyEnd => exact h.copyEnd he
  case moveFail => exact h.moveFail he
  case flip => exact h.flip he.left
  case copyStart => exact h.of_quiet .copyStart
  case retire => exact h.of_quiet (.retire he)
  case pause => exact h.of_quiet .pause
  case resume => exact h.of_quiet .resume
  case dispatch => exact h.of_quiet (.dispatch he)
  case work => exact h.of_quiet .work
  case sweep => exact h.of_quiet .sweep
  case crash =>
    refine ⟨h.distinct, ?_, ?_, ⟨h.fresh.left, ?_⟩, ?_, fun hn => absurd rfl hn, ?_, .nil, fun _ => ⟨rfl, rfl, rfl⟩⟩
    all_goals exact fun _ hm => absurd hm not_mem_nil
  case «open» tiers =>
    have hidle := h.idle (by rw [show s.phase = .closed from he]; exact Phase.noConfusion)
    refine ⟨h.distinct, h.unlisted, h.single, h.fresh, h.plain, fun _ => hc, ?_, h.disjoint, fun _ => hidle⟩
    rw [show (s.exec place (.open tiers)).moves = s.moves from rfl, hidle.right.left]
    exact fun _ hm => absurd hm not_mem_nil
  case opened =>
    have hp : s.phase = .opening := he
    exact ⟨h.distinct, h.unlisted, h.single, h.fresh, h.plain,
      fun _ => h.shared (by rw [hp]; exact Phase.noConfusion), h.moving, h.disjoint, fun hn => absurd rfl hn⟩

end Named

end State

end OndaDb.Parts

import OndaDb.Prepared.Theorems.Fate

namespace OndaDb.Prepared.Store

open List

variable {I K V : Type} [DecidableEq I] {s : Store I K V} {id : I} {ws : List (WriteEntry K V)}
  {P G g : Nat} {c : Option Nat}

theorem writing_prepareAppend (ha : s.Aged) (hn : s.NoPrepare id) (hl : s.registry.byId.lookup id = none)
    (hd : ∀ g i c, ¬ At s.files g (.decision id i c)) :
    (s.prepareAppend size id i ws).Writing id ws s.gen where
  only := fun g i' ws' hf => by
    rcases at_append.mp hf with hf | ⟨rfl, heq, -⟩
    · exact absurd hf (hn g i' ws')
    · cases heq
      exact ⟨rfl, rfl⟩
  free := hl
  undecided := fun g i' c hf => by
    rcases at_append.mp hf with hf | ⟨-, heq, -⟩
    · exact hd g i' c hf
    · cases heq
  call := .inr ⟨⟨id, ws, size ws, s.gen⟩, i, false, rfl, rfl, rfl, rfl,
    fun hu => absurd (ha.unlinks _ hu) (Nat.lt_irrefl _),
    at_append.mpr (.inr ⟨rfl, rfl, ha.current⟩), fun h => by cases h⟩

theorem Writing.synced (h : s.Writing id ws P) (hp : s.poisoned = false)
    (hb : s.busy = some (.preparing e i false)) :
    Writing { s.sync e.prepareGen with busy := some (.preparing e i true) } id ws P where
  only := fun g i' ws' hf => h.only g i' ws' (at_sync.mp hf)
  __ := h
  undecided := fun g i' c hf => h.undecided g i' c (at_sync.mp hf)
  call := by
    rcases h.call with hp' | ⟨e', i', b, hb', hid, hws, hP, hu, hat, -⟩
    · rw [hp] at hp'
      cases hp'
    · rw [hb] at hb'
      cases hb'
      exact .inr ⟨e, i, true, rfl, hid, hws, hP, hu, at_sync.mpr hat,
        fun _ => ⟨i, hP ▸ syncedAt_sync_self (hP ▸ hat)⟩⟩

theorem Writing.poison (h : s.Writing id ws P) : Writing { s with busy := none, poisoned := true } id ws P where
  __ := h
  call := .inl rfl

theorem Writing.prepareDone [LinearOrder K] (h : s.Writing id ws P) (hp : s.poisoned = false)
    (hb : s.busy = some (.preparing e i true)) : (s.prepareDone e).Pending id ws P := by
  rcases h.call with hp' | ⟨e', i', b, hb', hid, hws, hP, hu, hat, hs⟩
  · rw [hp] at hp'
    cases hp'
  rw [hb] at hb'
  cases hb'
  exact
    { only := h.only
      registered := ⟨e, by
        rw [Store.prepareDone, Registry.register, hid, Map.lookup_insert_eq, if_pos rfl], hid, hws, hP⟩
      has := hs rfl
      stays := hu
      aborts := fun g i c hf => absurd hf (h.undecided g i c)
      older := fun _ _ g i c hf => absurd hf (h.undecided g i c)
      call := nofun }

theorem Pending.commitDecide {i start : Nat} (h : s.Pending id ws P) (ha : s.Aged) (hb : s.busy = none)
    (hp : s.poisoned = false) (hl : s.registry.byId.lookup id = some e) :
    (s.commitDecide e i start).Logged id ws P (some start) s.gen := by
  obtain ⟨e', hl', hid, hws, hP⟩ := h.registered
  obtain rfl : e = e' := Option.some.inj (hl.symm.trans hl')
  have hu : ¬ s.Unlinks s.gen := fun hu => absurd (ha.unlinks _ hu) (Nat.lt_irrefl _)
  have hat : ∀ g i' f, At (s.commitDecide e i start).files g f → f.owner = some (id, i') → At s.files g f ∨
      g = s.gen ∧ f = .decision id i (some (start, e.writes.length)) := by
    intro g i' f hf ho
    rcases at_append.mp (at_sync.mp hf) with hf | ⟨hg, rfl, -⟩
    · exact .inl hf
    · exact .inr ⟨hg, by rw [hid]⟩
  have honly : (s.commitDecide e i start).OnlyPrepare id ws P := fun g i' ws' hf => by
    rcases hat g i' _ hf rfl with hf | ⟨-, heq⟩
    · exact h.only g i' ws' hf
    · cases heq
  refine ⟨honly, .inr ⟨start, e, rfl, by rw [← hid]; rfl, hl, hid, hws, hP⟩, fun _ => ⟨?_, ?_⟩,
    fun _ => ?_, fun _ => ⟨?_, h.stays⟩⟩
  · refine ⟨i, some (start, e.writes.length), syncedAt_sync_self ?_, rfl⟩
    exact at_append.mpr (.inr ⟨rfl, by rw [hid], ha.current⟩)
  · intro g i' d hf
    rcases hat g i' _ hf rfl with hf | ⟨rfl, heq⟩
    · exact .inl (h.older hp (by simp [hb]) g i' d hf)
    · cases heq
      exact .inr ⟨rfl, rfl⟩
  · have hcall : (s.commitDecide e i start).busy = some (.committed id s.gen start) := by rw [← hid]; rfl
    exact .call hcall hl hP h.stays hu
  · obtain ⟨i', hs⟩ := h.has
    exact ⟨i', syncedAt_sync (syncedAt_append hs)⟩

-- A commit whose sync fails leaves a decision that a crash may or may not keep.
theorem Pending.commitFails (h : s.Pending id ws P) (hl : s.Layers) (hb : s.busy = none) :
    Pending { s.append (.decision id i d) with poisoned := true } id ws P where
  only := fun g i' ws' hf => by
    rcases at_append.mp hf with hf | ⟨-, heq, -⟩
    · exact h.only g i' ws' hf
    · cases heq
  __ := h
  has := by
    obtain ⟨i', hs⟩ := h.has
    exact ⟨i', syncedAt_append hs⟩
  aborts := fun g i' c hf => by
    rcases at_append.mp hf with hf | ⟨rfl, -, -⟩
    · exact (h.aborts g i' c hf).imp_right fun h => ⟨rfl, h.2⟩
    · exact .inr ⟨rfl, hl.floor⟩
  older := fun h => by cases h
  call := fun g b hb' => by
    have : s.busy = some (.aborting id g b) := hb'
    rw [hb] at this
    cases this

theorem Pending.abortAppend (h : s.Pending id ws P) (ha : s.Aged) (hb : s.busy = none) (hp : s.poisoned = false) :
    (s.abortAppend id i).Pending id ws P where
  only := fun g i' ws' hf => by
    rcases at_append.mp hf with hf | ⟨-, heq, -⟩
    · exact h.only g i' ws' hf
    · cases heq
  __ := h
  has := by
    obtain ⟨i', hs⟩ := h.has
    exact ⟨i', syncedAt_append hs⟩
  aborts := fun g i' c hf => by
    rcases at_append.mp hf with hf | ⟨-, heq, -⟩
    · exact h.aborts g i' c hf
    · cases heq
      exact .inl rfl
  older := fun _ hb' => absurd rfl (hb' s.gen false)
  call := fun g b hb' => by
    cases hb'
    refine ⟨fun hu => absurd (ha.unlinks _ hu) (Nat.lt_irrefl _), Nat.le_refl _,
      ⟨i, at_append.mpr (.inr ⟨rfl, rfl, ha.current⟩)⟩, fun h => (by cases h), ?_⟩
    intro g' i' c hf
    rcases at_append.mp hf with hf | ⟨rfl, -, -⟩
    · exact (h.older hp (by simp [hb]) g' i' c hf).le
    · exact Nat.le_refl _

theorem Pending.poison (h : s.Pending id ws P) : Pending { s with busy := none, poisoned := true } id ws P where
  __ := h
  aborts := fun g i c hf => (h.aborts g i c hf).imp_right fun h => ⟨rfl, h.2⟩
  older := fun h => by cases h
  call := nofun

theorem Pending.synced (h : s.Pending id ws P) (hb : s.busy = some (.aborting id g false)) :
    Pending { s.sync g with busy := some (.aborting id g true) } id ws P where
  only := fun g' i ws' hf => h.only g' i ws' (at_sync.mp hf)
  __ := h
  has := by
    obtain ⟨i, hs⟩ := h.has
    exact ⟨i, syncedAt_sync hs⟩
  aborts := fun g' i c hf => h.aborts g' i c (at_sync.mp hf)
  older := fun _ hb' => absurd rfl (hb' g true)
  call := fun g' b hb' => by
    cases hb'
    obtain ⟨hu, hle, ⟨i, hat⟩, -, hle'⟩ := h.call g false hb
    exact ⟨hu, hle, ⟨i, at_sync.mpr hat⟩, fun _ => ⟨i, syncedAt_sync_self hat⟩,
      fun g' i c hf => hle' g' i c (at_sync.mp hf)⟩

section Decided

variable [LinearOrder K]

theorem decided_of_lookup (hl : s.registry.byId.lookup id = some e) :
    s.decided id G = { s with
      registry := { s.registry with
        byId := s.registry.byId.erase id
        byKey := e.writes.foldl (Registry.unreserve id) s.registry.byKey
        bytes := s.registry.bytes - e.bytes
        retiring := s.registry.retiring.insert id }
      gens := s.gens.resolved id e.prepareGen G
      busy := none } := by
  rw [decided, Registry.resolve, hl]
  rfl

theorem Pending.decided (h : s.Pending id ws P) (hp : s.poisoned = false)
    (hb : s.busy = some (.aborting id G true)) : (s.decided id G).Logged id ws P none G := by
  obtain ⟨e, hl, hid, hws, hP⟩ := h.registered
  obtain ⟨hu, -, -, hs, hle⟩ := h.call G true hb
  rw [decided_of_lookup hl]
  refine ⟨h.only, .inl (by rw [Map.lookup_erase_eq, if_pos rfl]), fun _ => ⟨?_, ?_⟩, fun _ => ?_,
    fun _ => ⟨h.has, h.stays⟩⟩
  · obtain ⟨i, hs⟩ := hs rfl
    exact ⟨i, none, hs, rfl⟩
  · intro g i d hf
    obtain rfl : d = none := (h.aborts g i d hf).resolve_right fun h => by
      rw [hp] at h
      cases h.1
    exact (Nat.lt_or_eq_of_le (hle g i none hf)).imp_right fun h => ⟨h, rfl⟩
  · exact .tomb (t := ⟨id, e.prepareGen, G, false, false⟩) (mem_append_right _ mem_cons_self) hP
      rfl rfl rfl h.stays hu

theorem Logged.decided (h : s.Logged id ws P c G) : (s.decided id G).Logged id ws P c G := by
  rcases hl : s.registry.byId.lookup id with _ | e
  · rw [Store.decided, Registry.resolve, hl]
    refine ⟨h.only, .inl hl, h.resolves, fun hn => ?_, h.above⟩
    cases h.ordered hn
    case call hl' _ _ _ => rw [hl] at hl'; cases hl'
    case tomb ht hP hG hd hd' hu hu' => exact .tomb ht hP hG hd hd' hu hu'
    case leaving hu hP hb => exact .leaving hu hP hb
  · rw [decided_of_lookup hl]
    have hP : e.prepareGen = P := by
      rcases h.registered with hl' | ⟨_, e', -, -, hl', -, -, hP⟩
      · rw [hl] at hl'
        cases hl'
      · rw [hl] at hl'
        exact Option.some.inj hl' ▸ hP
    refine ⟨h.only, .inl (by rw [Map.lookup_erase_eq, if_pos rfl]), h.resolves, fun hn => ?_, h.above⟩
    cases h.ordered hn
    case call _ _ hu hu' =>
      exact .tomb (t := ⟨id, e.prepareGen, G, false, false⟩) (mem_append_right _ mem_cons_self)
        hP rfl rfl rfl hu hu'
    case tomb ht hP hG hd hd' hu hu' => exact .tomb (mem_append_left _ ht) hP hG hd hd' hu hu'
    case leaving hu hP hb => exact .leaving hu hP hb

end Decided

theorem Fated.sweep (h : s.Fated id f) (hl : s.Layers) (hu : s.unlinking = [])
    (hb : ∀ b, s.busy = some b → b.gen ∉ s.gens.flushed)
    (hpin : ∀ e, s.registry.byId.lookup id = some e → e.prepareGen ∈ s.gens.live) : s.sweep.Fated id f := by
  have hs := WalGenState.sweep_swept s.gens
  rw [Store.sweep]
  generalize s.gens.sweep = r at hs
  obtain ⟨l, ids, gens⟩ := r
  simp only [hu, nil_append] at hs ⊢
  have hun : ∀ {g}, g ∉ l →
      ¬ Unlinks { s with gens := gens, unlinking := [(l, ids)] } g := fun {g} hg h => by
    obtain ⟨u, hu, hm⟩ := h
    rw [mem_singleton] at hu
    subst hu
    exact hg hm
  have hbusy : ∀ b, s.busy = some b → b.gen ∉ l := fun b hb' hm => hb b hb' (hs.sub hm)
  cases f
  case absent => exact h
  case writing ws P =>
    refine ⟨h.only, h.free, h.undecided, h.call.imp_right ?_⟩
    rintro ⟨e, i, b, hb', hid, hws, hP, -, hat, hsy⟩
    exact ⟨e, i, b, hb', hid, hws, hP, hun (hP ▸ hbusy _ hb'), hat, hsy⟩
  case pending ws P =>
    obtain ⟨e, hlk, -, -, hP⟩ := h.registered
    refine ⟨h.only, h.registered, h.has, hun fun hm => hs.pinned P hm (hP ▸ hpin e hlk), h.aborts, h.older,
      fun g b hb' => ?_⟩
    obtain ⟨-, h⟩ := h.call g b hb'
    exact ⟨hun (hbusy _ hb'), h⟩
  case decided ws P c G =>
    have hnone : ∀ {u}, u ∉ s.unlinking := fun {u} h => by rw [hu] at h; cases h
    refine ⟨h.only, h.registered, h.resolves, fun hn => ?_, fun hf => ⟨(h.above hf).1, hun fun hm => ?_⟩⟩
    · cases h.ordered hn
      case call e start hb' hlk hP _ _ =>
        exact .call hb' hlk hP (hun fun hm => hs.pinned P hm (hP ▸ hpin e hlk)) (hun (hbusy _ hb'))
      case leaving hm _ _ => exact absurd hm hnone
      case tomb t ht hP hG hd hd' _ _ =>
        have hbef : Before P G l := by
          rcases hs.before t ht with hdel | hbef
          · rw [hd] at hdel
            cases hdel
          · rw [← hP, ← hG]
            exact hbef
        by_cases hm : P ∈ l
        · exact .leaving mem_cons_self hm hbef
        -- Neither is taken: the tombstone is as it was.
        have hmG : G ∉ l := fun h => hm (hbef.mem h)
        rcases hs.tombs t ht with ⟨t', ht', hf⟩ | ⟨-, hgone⟩
        · refine .tomb ht' (hf.prepare.trans hP) (hf.decision.trans hG) ?_ ?_ (hun hm) (hun hmG)
          · refine Bool.eq_false_iff.mpr fun hdel => ?_
            rcases hf.prepared hdel with hdel | hm'
            · rw [hd] at hdel
              cases hdel
            · exact hm (hP ▸ hm')
          · refine Bool.eq_false_iff.mpr fun hdel => ?_
            rcases hf.decided hdel with hdel | hm'
            · rw [hd'] at hdel
              cases hdel
            · exact hmG (hG ▸ hm')
        · rcases hgone.1 with hdel | hm'
          · rw [hd] at hdel
            cases hdel
          · exact absurd (hP ▸ hm') hm
    · -- A prepare is unlinked only behind the flush of its decision.
      have hn : ¬ s.NoPrepare id := fun hn => by
        obtain ⟨i, hsy⟩ := (h.above hf).1
        exact hn P i ws hsy.at
      cases h.ordered hn
      case call e start hb' hlk hP _ _ => exact hs.pinned P hm (hP ▸ hpin e hlk)
      case leaving hm _ _ => exact hnone hm
      case tomb t ht hP hG hd hd' _ _ =>
        rcases hs.after t ht (hP ▸ hm) with hdel | hdel | hfl
        · rw [hd] at hdel
          cases hdel
        · rw [hd'] at hdel
          cases hdel
        · exact absurd (hl.flushed _ hfl) (Nat.not_lt.mpr (hG ▸ hf))

theorem Fated.unlinkFile (h : s.Fated id f) (hu : s.unlinking = [(g₀ :: gs, ids)]) :
    Fated { s with files := s.files.filter (·.gen ≠ g₀), unlinking := [(gs, ids)] } id f := by
  have hun : ∀ {g}, ¬ s.Unlinks g → g ≠ g₀ ∧
      ¬ Unlinks { s with files := s.files.filter (·.gen ≠ g₀), unlinking := [(gs, ids)] } g := by
    intro g hg
    refine ⟨fun heq => hg ⟨_, hu ▸ mem_cons_self, heq ▸ mem_cons_self⟩, fun h => hg ?_⟩
    obtain ⟨u, hm, hg⟩ := h
    rw [mem_singleton] at hm
    subst hm
    exact ⟨_, hu ▸ mem_cons_self, mem_cons_of_mem _ hg⟩
  cases f
  case absent => exact ⟨fun g i ws hf => h.1 g i ws (at_filter.mp hf).1, h.2⟩
  case writing ws P =>
    refine ⟨fun g i ws' hf => h.only g i ws' (at_filter.mp hf).1, h.free,
      fun g i c hf => h.undecided g i c (at_filter.mp hf).1, h.call.imp_right ?_⟩
    rintro ⟨e, i, b, hb, hid, hws, hP, hP', hat, hs⟩
    refine ⟨e, i, b, hb, hid, hws, hP, (hun hP').2, at_filter.mpr ⟨hat, (hun hP').1⟩, fun hb => ?_⟩
    obtain ⟨i, hs⟩ := hs hb
    exact ⟨i, syncedAt_filter.mpr ⟨hs, (hun hP').1⟩⟩
  case pending ws P =>
    refine ⟨fun g i ws' hf => h.only g i ws' (at_filter.mp hf).1, h.registered, ?_, (hun h.stays).2,
      fun g i c hf => h.aborts g i c (at_filter.mp hf).1,
      fun hp hb g i c hf => h.older hp hb g i c (at_filter.mp hf).1, fun g b hb => ?_⟩
    · obtain ⟨i, hs⟩ := h.has
      exact ⟨i, syncedAt_filter.mpr ⟨hs, (hun h.stays).1⟩⟩
    · obtain ⟨hg, hle, ⟨i, hat⟩, hs, hle'⟩ := h.call g b hb
      refine ⟨(hun hg).2, hle, ⟨i, at_filter.mpr ⟨hat, (hun hg).1⟩⟩, fun hb => ?_,
        fun g' i c hf => hle' g' i c (at_filter.mp hf).1⟩
      obtain ⟨i, hs⟩ := hs hb
      exact ⟨i, syncedAt_filter.mpr ⟨hs, (hun hg).1⟩⟩
  case decided ws P c G =>
    -- With the prepare still on disk, what goes is neither it nor the decision.
    have hkeep : ¬ NoPrepare { s with files := s.files.filter (·.gen ≠ g₀), unlinking := [(gs, ids)] } id →
        ¬ s.NoPrepare id ∧ P ≠ g₀ := by
      intro hn
      simp only [NoPrepare, not_forall, not_not] at hn
      obtain ⟨g, i, ws', hf⟩ := hn
      obtain ⟨hf, hne⟩ := at_filter.mp hf
      exact ⟨fun hn => hn g i ws' hf, (h.only g i ws' hf).1 ▸ hne⟩
    refine ⟨fun g i ws' hf => h.only g i ws' (at_filter.mp hf).1, h.registered, fun hn => ?_, fun hn => ?_,
      fun hf => ⟨?_, (hun (h.above hf).2).2⟩⟩
    · obtain ⟨hn, hP⟩ := hkeep hn
      have hG : G ≠ g₀ := by
        cases h.ordered hn
        case call hG => exact (hun hG).1
        case tomb hG => exact (hun hG).1
        case leaving hm _ hb =>
          rw [hu, mem_singleton] at hm
          subst hm
          exact (hb.head_ne hP.symm).symm
      obtain ⟨i, d, hs, hd⟩ := (h.resolves hn).has
      exact ⟨⟨i, d, syncedAt_filter.mpr ⟨hs, hG⟩, hd⟩,
        fun g i d hf => (h.resolves hn).newest g i d (at_filter.mp hf).1⟩
    · obtain ⟨hn, hP⟩ := hkeep hn
      cases h.ordered hn
      case call hb hl he hP' hG => exact .call hb hl he (hun hP').2 (hun hG).2
      case tomb ht he hg hd hd' hP' hG => exact .tomb ht he hg hd hd' (hun hP').2 (hun hG).2
      case leaving hm hmem hb =>
        rw [hu, mem_singleton] at hm
        subst hm
        exact .leaving mem_cons_self ((mem_cons.mp hmem).resolve_left hP) (hb.tail hP.symm)
    · obtain ⟨i, hs⟩ := (h.above hf).1
      exact ⟨i, syncedAt_filter.mpr ⟨hs, (hun (h.above hf).2).1⟩⟩

theorem Fated.swept (h : s.Fated id f) (hu : s.unlinking = [([], ids)]) (hr : reg.byId = s.registry.byId) :
    Fated { s with registry := reg, unlinking := [] } id f := by
  have hun : ∀ {g}, ¬ Unlinks { s with registry := reg, unlinking := [] } g := fun {g} h => by
    simp [Unlinks] at h
  cases f
  case absent => exact ⟨h.1, hr ▸ h.2⟩
  case writing ws P =>
    refine ⟨h.only, hr ▸ h.free, h.undecided, h.call.imp_right ?_⟩
    rintro ⟨e, i, b, hb, hid, hws, hP, -, h⟩
    exact ⟨e, i, b, hb, hid, hws, hP, hun, h⟩
  case pending ws P =>
    refine ⟨h.only, hr ▸ h.registered, h.has, hun, h.aborts, h.older, fun g b hb => ?_⟩
    obtain ⟨-, h⟩ := h.call g b hb
    exact ⟨hun, h⟩
  case decided ws P c G =>
    refine ⟨h.only, hr ▸ h.registered, h.resolves, fun hn => ?_, fun hf => ⟨(h.above hf).1, hun⟩⟩
    cases h.ordered hn
    case call hb hl he _ _ => exact .call hb (hr ▸ hl) he hun hun
    case tomb ht he hg hd hd' _ _ => exact .tomb ht he hg hd hd' hun hun
    case leaving hm hmem _ =>
      rw [hu, mem_singleton] at hm
      subst hm
      cases hmem

theorem Fated.unlink (h : s.Fated id f) (h1 : s.unlinking.length ≤ 1) :
    (s.unlink i).Fated id f := by
  rw [Store.unlink]
  split
  case h_1 g₀ gs ids heq =>
    obtain ⟨rfl, hu⟩ := eq_singleton_of_getElem? h1 heq
    rw [hu]
    exact h.unlinkFile hu
  case h_2 ids heq =>
    obtain ⟨rfl, hu⟩ := eq_singleton_of_getElem? h1 heq
    rw [hu]
    exact h.swept hu (Registry.foldl_forget ids s.registry).1
  case h_3 => exact h

end OndaDb.Prepared.Store

import OndaDb.Prepared.Theorems.Isolation
import OndaDb.Prepared.Theorems.Reuse
import OndaDb.Prepared.Theorems.Sound

namespace OndaDb.Prepared.Run

open List

open Store (Leaves)

variable {I K V : Type} [DecidableEq I] [LinearOrder K] {r : Run I K V} {fate : I → Fate K V}

structure Told (r : Run I K V) (fate : I → Fate K V) : Prop where
  attempted : ∀ id ws P c G, fate id = .decided ws P c G → id ∈ r.attempted
  prepared : ∀ id ws, (id, ws) ∈ r.prepared →
    ∃ P, fate id = .pending ws P ∨ ∃ c G, fate id = .decided ws P c G
  committed : ∀ id ws start, (id, ws, start) ∈ r.committed →
    r.store.registry.byId.lookup id = none ∧ ∃ P G, fate id = .decided ws P (some start) G
  aborted : ∀ id ∈ r.aborted,
    r.store.registry.byId.lookup id = none ∧ ∃ ws P G, fate id = .decided ws P none G

structure Sound (r : Run I K V) (fate : I → Fate K V) : Prop where
  traced : r.store.Traced fate r.used r.attempted
  stored : r.store.Stored fate r.dropped r.ticks
  claimed : r.store.Claimed fate
  told : r.Told fate

theorem sound_start : Sound (start maxBytes : Run I K V) fun _ => .absent where
  traced :=
    { aged := .start
      once := by simp [start, Store.start, Store.prepares]
      fated := fun _ => ⟨fun _ _ _ h => by simp [start, Store.start, At] at h, rfl⟩
      spent := fun _ h => absurd rfl h
      tried := fun _ _ _ _ h => by simp [start, Store.start, At] at h
      one := fun _ _ _ _ _ _ h => by simp [start, Store.start, At] at h
      single := Nat.zero_le 1
      calm := fun _ => rfl
      call := nofun }
  stored :=
    { layers := .start
      placed := .start
      applied := nofun
      owned := fun i _ h => by simp [start, Store.start, Store.Somewhere, Store.InMem, Store.mems] at h
      ticks := fun i _ h => by simp [start, Store.start, Store.Somewhere, Store.InMem, Store.mems] at h }
  claimed := ⟨⟨[], .refl _, nofun⟩, nofun, nofun⟩
  told := ⟨nofun, nofun, nofun,
    nofun⟩

theorem Sound.exact [ToString I] [ToString K] (h : r.Sound fate) :
    r.Exact size where
  reopens := fun sv =>
    ⟨_, if_pos (((Store.prepares_survivors sv).map _).nodup h.traced.once)⟩
  committed := fun id ws start hmem => by
    obtain ⟨hl, P, G, hf⟩ := h.told.committed id ws start hmem
    refine ⟨hl, fun i hr hsrc => ?_, fun i hi => ?_⟩
    · obtain ⟨ws', P', start', G', hf', hi⟩ := h.stored.owned i id (hr.imp_right .inl) hsrc
      rw [hf] at hf'
      cases hf'
      exact hi
    · have ha := h.stored.applied id ws P start G hf
      rcases Nat.lt_or_ge G r.store.floor with hlt | hge
      · exact (ha.below hlt i hi).imp_left .inr
      · exact .inl (.inl (ha.above hge i hi).inMem)
  aborted := fun id hmem => by
    obtain ⟨hl, ws, P, G, hf⟩ := h.told.aborted id hmem
    refine ⟨hl, fun i hr hsrc => ?_⟩
    obtain ⟨_, _, _, _, hf', -⟩ := h.stored.owned i id (hr.imp_right .inl) hsrc
    rw [hf] at hf'
    cases hf'
  undecided := fun id ws hmem hatt => by
    obtain ⟨P, hf | ⟨c, G, hf⟩⟩ := h.told.prepared id ws hmem
    · have hp := h.traced.fated id
      rw [hf] at hp
      obtain ⟨e, hl, -, hws, -⟩ := hp.registered
      exact ⟨e, hl, hws, h.claimed.reserved id ws P hf⟩
    · exact absurd (h.told.attempted id ws P c G hf) hatt
  dropped := fun i hi hr => by
    rcases hr with hm | ht
    · exact (h.stored.placed.mem i hm).2 hi
    · exact h.stored.placed.gone i ht hi

omit [LinearOrder K] in
theorem Told.update {r' : Run I K V} {id₀ : I} {f : Fate K V} (h : r.Told fate)
    (hnot : ∀ ws P c G, fate id₀ ≠ .decided ws P c G)
    (hnext : ∀ ws P, fate id₀ = .pending ws P → ∃ P, f = .pending ws P ∨ ∃ c G, f = .decided ws P c G)
    (hdec : ∀ ws P c G, f = .decided ws P c G → id₀ ∈ r'.attempted) (hatt : r.attempted ⊆ r'.attempted)
    (hl : ∀ id, r.store.registry.byId.lookup id = none → id ≠ id₀ → r'.store.registry.byId.lookup id = none)
    (hp : r'.prepared = r.prepared) (hc : r'.committed = r.committed) (ha : r'.aborted = r.aborted) :
    r'.Told (Function.update fate id₀ f) where
  attempted := fun id ws P c G hf => by
    by_cases hid : id = id₀
    · subst hid
      rw [Function.update_self] at hf
      exact hdec ws P c G hf
    · rw [Function.update_of_ne hid] at hf
      exact hatt (h.attempted id ws P c G hf)
  prepared := fun id ws hmem => by
    obtain ⟨P, hf⟩ := h.prepared id ws (hp ▸ hmem)
    by_cases hid : id = id₀
    · subst hid
      rw [Function.update_self]
      rcases hf with hf | ⟨c, G, hf⟩
      · exact hnext ws P hf
      · exact absurd hf (hnot ws P c G)
    · rw [Function.update_of_ne hid]
      exact ⟨P, hf⟩
  committed := fun id ws start hmem => by
    obtain ⟨hl', P, G, hf⟩ := h.committed id ws start (hc ▸ hmem)
    have hid : id ≠ id₀ := fun hid => hnot ws P _ G (hid ▸ hf)
    exact ⟨hl id hl' hid, P, G, by rw [Function.update_of_ne hid]; exact hf⟩
  aborted := fun id hmem => by
    obtain ⟨hl', ws, P, G, hf⟩ := h.aborted id (ha ▸ hmem)
    have hid : id ≠ id₀ := fun hid => hnot ws P _ G (hid ▸ hf)
    exact ⟨hl id hl' hid, ws, P, G, by rw [Function.update_of_ne hid]; exact hf⟩

omit [LinearOrder K] in
theorem update_eq_decided (h : ∀ ws P c G, fate id₀ ≠ .decided ws P c G)
    (hf : ∀ ws P c G, f ≠ .decided ws P (some c) G) (id : I) (ws : List (WriteEntry K V)) (P start G : Nat) :
    Function.update fate id₀ f id = .decided ws P (some start) G ↔ fate id = .decided ws P (some start) G := by
  by_cases hid : id = id₀
  · subst hid
    rw [Function.update_self]
    exact ⟨fun h' => absurd h' (hf ws P start G), fun h' => absurd h' (h ws P _ G)⟩
  · rw [Function.update_of_ne hid]

omit [LinearOrder K] in
theorem leaves_call {id id₀ : I} (hne : id ≠ id₀) (hs : s.busy = none) (hb : b.Of id₀) :
    Leaves id s { s with busy := some b } :=
  Store.leaves_busy fun x hx => by
    rw [hs]
    refine ⟨fun h => ?_, fun h => by cases h⟩
    cases h
    exact absurd (hx.unique hb) hne

namespace Sound

theorem prepareAppend {size : List (WriteEntry K V) → Nat} {id : I} {ws : List (WriteEntry K V)}
    (h : r.Sound fate) (hb : r.store.busy = none) (hp : r.store.poisoned = false)
    (ho : ∀ w ∈ ws, r.store.registry.ownerOf w.cf w.key = none) (hid : id ∉ r.used) :
    Sound { r with
      store := r.store.prepareAppend size id r.ticks ws
      ticks := r.ticks + 1
      used := id :: r.used } (Function.update fate id (.writing ws r.store.gen)) := by
  have habs : fate id = .absent := by
    by_contra hf
    exact hid (h.traced.spent id hf)
  have hfate := h.traced.fated id
  rw [habs] at hfate
  have ha := h.traced.aged
  have hnone : ∀ g i c, ¬ At r.store.files g (.decision id i c) := fun g i c hf =>
    hid (h.traced.tried g id i c hf).2
  have hnone' : ∀ g i c, ¬ At (r.store.prepareAppend size id r.ticks ws).files g (.decision id i c) :=
    fun g i c hf => (Store.at_append.mp hf).elim (hnone g i c) fun h => by cases h.2.1
  refine ⟨?_, ?_, ?_, ?_⟩
  · refine h.traced.step ⟨ha.append.nodup, ha.append.current, ha.append.files, ha.active, ha.imms, ha.flushed,
      ha.unlinks⟩ ?_ (fun id' hne => ?_) (Store.writing_prepareAppend ha hfate.1 hfate.2 hnone)
      mem_cons_self (subset_cons_self _ _) (List.Subset.refl _) ?_ ?_ rfl ?_ ?_
    · refine Store.once_append h.traced.once ha.nodup ha.current ?_
      rintro _ _ _ ⟨⟩
      exact hfate.1
    · refine (Store.leaves_append fun i hi => hne ?_).trans (leaves_call hne hb rfl)
      exact (Prod.mk.inj (Option.some.inj hi)).1.symm
    · exact fun g i c hf => absurd hf (hnone' g i c)
    · exact fun g i c i' c' hf => absurd hf (hnone' g i c)
    · intro hp'
      have : r.store.poisoned = true := hp'
      rw [hp] at this
      cases this
    · rintro _ ⟨⟩
      exact Function.update_self ..
  · have hs : (r.store.prepareAppend size id r.ticks ws).Stored
        (Function.update fate id (.writing ws r.store.gen)) r.dropped r.ticks := h.stored.congr
      { h.stored.layers with } rfl rfl rfl
      (fun g items hat => (Store.at_append.mp hat).resolve_right fun h => by cases h.2.1)
      (update_eq_decided (by simp [habs]) (by simp))
    exact ⟨hs.layers, hs.placed, hs.applied, hs.owned, fun i n hi hsrc =>
      (hs.ticks i n hi hsrc).trans (Nat.lt_succ_self _)⟩
  · refine h.claimed.prepareAppend rfl rfl (fun id' ws' P hf => ?_) ho
    have hw := h.traced.fated id'
    rw [hf] at hw
    rcases hw.call with hp' | ⟨_, _, _, hb', -⟩
    · rw [hp] at hp'
      cases hp'
    · rw [hb] at hb'
      cases hb'
  · exact h.told.update (by simp [habs]) (by simp [habs]) (by simp) (List.Subset.refl _)
      (fun _ h _ => h) rfl rfl rfl

theorem quiet (h : r.Sound fate) (ht : s.Traced fate r.used r.attempted) (hg : s.gen = r.store.gen)
    (ha : s.active = r.store.active) (hi : s.imms = r.store.imms) (hr : s.registry = r.store.registry)
    (hgens : s.gens = r.store.gens) (hu : s.unlinking = r.store.unlinking) (htab : s.tables = r.store.tables)
    (hf : s.floor = r.store.floor)
    (hd : ∀ g items, At s.files g (.data items) → At r.store.files g (.data items)) :
    Sound { r with store := s } fate where
  traced := ht
  stored := by
    have hm : s.mems = r.store.mems := by rw [Store.mems, Store.mems, ha, hi]
    have hl := h.stored.layers
    refine h.stored.congr ⟨hm ▸ hl.order, ?_, ?_, ?_, ?_⟩ hm htab hf hd fun _ _ _ _ _ => .rfl
    · rw [hg, ha]; exact hl.active
    · rw [hf, hg]; exact hl.floor
    · rw [hgens, hf]; exact hl.flushed
    · simp only [Store.Unlinks, hu, hf]; exact hl.unlinks
  claimed := h.claimed.congr hr (by rw [hgens]) (fun _ _ _ h => h) fun _ => List.Subset.refl _
  told := ⟨h.told.attempted, h.told.prepared, fun id ws start hm => hr ▸ h.told.committed id ws start hm,
    fun id hm => hr ▸ h.told.aborted id hm⟩

theorem commit {start : Nat} (h : r.Sound fate) :
    Sound { r with
      store := r.store.commit (stampItems (.commit r.ticks) start ws)
      ticks := r.ticks + 1 } fate where
  traced := by
    have ha := h.traced.aged
    refine h.traced.leaves ⟨ha.append.nodup, ha.append.current, ha.append.files, ha.active, ha.imms, ha.flushed,
      ha.unlinks⟩ ?_ (fun id => (Store.leaves_append ?_).trans Store.leaves_add) rfl rfl rfl
    · exact Store.once_append h.traced.once ha.nodup ha.current nofun
    · exact nofun
  stored := h.stored.commit
  claimed := h.claimed.congr rfl rfl (fun _ _ _ h => h) fun _ => List.Subset.refl _
  told := { h.told with }

theorem rotate (h : r.Sound fate) : Sound { r with store := r.store.rotate } fate where
  traced := h.traced.leaves h.traced.aged.rotate
    (by rw [Store.rotate, Store.prepares_new]; exact h.traced.once) (fun _ => Store.leaves_rotate) rfl rfl rfl
  stored := h.stored.rotate h.traced.aged
  claimed := h.claimed.congr rfl rfl (fun _ _ _ h => h) fun _ => List.Subset.refl _
  told := { h.told with }

theorem used_of_fate {id : I} (h : r.Sound fate) (hf : fate id = f) (hne : f ≠ .absent) :
    id ∈ r.used :=
  h.traced.spent id (hf ▸ hne)

theorem tried {id : I} (h : r.Sound fate) (hat : At r.store.files g (.decision id i c)) : id ∈ r.attempted :=
  (h.traced.tried g id i c hat).1

theorem synced {id : I} (h : r.Sound fate) (hb : r.store.busy = some b) (hid : b.Of id) (hid' : b'.Of id)
    (hf : Store.Fated { r.store.sync g with busy := some b' } id (fate id)) (hused : id ∈ r.used)
    (hcall : Store.Call { r.store.sync g with busy := some b' } fate b') :
    Sound { r with store := { r.store.sync g with busy := some b' } } fate := by
  have ha := h.traced.aged
  refine h.quiet ?_ rfl rfl rfl rfl rfl rfl rfl rfl fun _ _ => Store.at_sync.mp
  refine h.traced.touch ⟨ha.sync.nodup, ha.sync.current, ha.sync.files, ha.active, ha.imms, ha.flushed,
    ha.unlinks⟩ (by rw [Store.prepares_sync]; exact h.traced.once) (fun id' hne => ?_) hf hused
    (List.Subset.refl _) (fun g i c hat => h.tried (Store.at_sync.mp hat)) (fun g i c i' c' hat hat' =>
      h.traced.one id g i c i' c' (Store.at_sync.mp hat) (Store.at_sync.mp hat')) rfl (fun hp => ?_) ?_
  · refine Store.leaves_sync.trans (Store.leaves_busy fun x hx => ?_)
    have hold : r.store.busy = some x ↔ False := by
      rw [hb]
      refine ⟨fun heq => ?_, False.elim⟩
      cases heq
      exact hne (hx.unique hid)
    refine ⟨fun heq => ?_, fun heq => (hold.mp heq).elim⟩
    cases heq
    exact absurd (hx.unique hid') hne
  · have := h.traced.calm hp
    rw [hb] at this
    cases this
  · rintro _ ⟨⟩
    exact hcall

theorem ended {id : I} (h : r.Sound fate) (hb : r.store.busy = some b) (hid : b.Of id)
    (hp : p = r.store.poisoned ∨ p = true)
    (hf : Store.Fated { r.store with busy := none, poisoned := p } id (fate id)) (hused : id ∈ r.used) :
    Sound { r with store := { r.store with busy := none, poisoned := p } } fate := by
  have ha := h.traced.aged
  refine h.quiet ?_ rfl rfl rfl rfl rfl rfl rfl rfl fun _ _ h => h
  refine h.traced.touch { ha with }
    h.traced.once (fun id' hne => ?_) hf hused (List.Subset.refl _) (fun g i c hat => h.tried hat)
    (h.traced.one id) rfl (fun _ => rfl) nofun
  have hbusy : Leaves id' r.store { r.store with busy := none } := Store.leaves_busy fun x hx => by
    rw [hb]
    refine ⟨fun h => (by cases h), fun heq => ?_⟩
    cases heq
    exact absurd (hx.unique hid) hne
  rcases hp with rfl | rfl
  · exact hbusy
  · exact hbusy.trans Store.leaves_poison

theorem prepareDone {e : Entry I K V} {i : Nat} (h : r.Sound fate)
    (hb : r.store.busy = some (.preparing e i true)) :
    Sound { r with
      store := r.store.prepareDone e
      inst := fun id => if id = e.id then i else r.inst id
      prepared := (e.id, e.writes) :: r.prepared }
      (Function.update fate e.id (.pending e.writes e.prepareGen)) := by
  have ha := h.traced.aged
  have hf : fate e.id = .writing e.writes e.prepareGen := h.traced.call _ hb
  have hw := h.traced.fated e.id
  rw [hf] at hw
  have hp : r.store.poisoned = false := by
    refine Bool.eq_false_iff.mpr fun hp => ?_
    rw [h.traced.calm hp] at hb
    cases hb
  refine ⟨?_, ?_, h.claimed.prepareDone hf, ?_⟩
  · exact h.traced.step { ha with } h.traced.once
      (fun id hne => Store.leaves_prepareDone (Ne.symm hne) hb) (hw.prepareDone hp hb)
      (h.used_of_fate hf (by simp)) (List.Subset.refl _) (List.Subset.refl _)
      (fun g i c hat => h.tried hat) (h.traced.one e.id) rfl (fun _ => rfl) nofun
  · exact h.stored.congr { h.stored.layers with } rfl rfl rfl (fun _ _ h => h)
      (update_eq_decided (by simp [hf]) (by simp))
  · have ht : Told { r with store := r.store.prepareDone e }
        (Function.update fate e.id (.pending e.writes e.prepareGen)) := h.told.update (by simp [hf]) (by simp [hf]) (by simp) (List.Subset.refl _)
      (fun id hl hne => by
        rw [Store.prepareDone, Registry.register, Map.lookup_insert_eq, if_neg hne]
        exact hl) rfl rfl rfl
    refine ⟨ht.attempted, fun id ws hmem => ?_, ht.committed, ht.aborted⟩
    rcases mem_cons.mp hmem with heq | hmem
    · cases heq
      exact ⟨e.prepareGen, .inl (Function.update_self ..)⟩
    · exact ht.prepared id ws hmem

theorem pending_of_lookup {id : I} (h : r.Sound fate) (hb : r.store.busy = none)
    (hl : r.store.registry.byId.lookup id = some e) :
    e.id = id ∧ fate id = .pending e.writes e.prepareGen := by
  have hf := h.traced.fated id
  cases hfate : fate id <;> rw [hfate] at hf
  case absent => rw [hf.2] at hl; cases hl
  case writing => rw [hf.free] at hl; cases hl
  case pending =>
    obtain ⟨e', hl', hid, rfl, rfl⟩ := hf.registered
    rw [hl] at hl'
    cases hl'
    exact ⟨hid, rfl⟩
  case decided =>
    rcases hf.registered with hl' | ⟨_, _, -, hb', -⟩
    · rw [hl'] at hl; cases hl
    · rw [hb] at hb'; cases hb'

theorem one_decision {id : I} {inst : Nat} {d : Option (Nat × Nat)} (h : r.Sound fate)
    (hb : r.store.busy = none) (hp : r.store.poisoned = false) (hf : ∃ ws P, fate id = .pending ws P)
    {g i i' : Nat} (hat : At (r.store.append (.decision id inst d)).files g (.decision id i c))
    (hat' : At (r.store.append (.decision id inst d)).files g (.decision id i' c')) : c = c' := by
  obtain ⟨ws, P, hf⟩ := hf
  have hpend := h.traced.fated id
  rw [hf] at hpend
  have holder := hpend.older hp (by simp [hb])
  rcases Store.at_append.mp hat with hat | ⟨rfl, heq, -⟩ <;>
    rcases Store.at_append.mp hat' with hat' | ⟨heq', heq'', -⟩
  · exact h.traced.one id g i c i' c' hat hat'
  · exact absurd (holder g i c hat) (heq' ▸ Nat.lt_irrefl _)
  · exact absurd (holder _ i' c' hat') (Nat.lt_irrefl _)
  · cases heq
    cases heq''
    rfl

theorem commitDecide {e : Entry I K V} {inst start : Nat} (h : r.Sound fate) (hb : r.store.busy = none)
    (hp : r.store.poisoned = false) (hl : r.store.registry.byId.lookup e.id = some e) :
    Sound { r with
      store := r.store.commitDecide e inst start
      attempted := e.id :: r.attempted }
      (Function.update fate e.id (.decided e.writes e.prepareGen (some start) r.store.gen)) := by
  have ha := h.traced.aged
  obtain ⟨-, hf⟩ := h.pending_of_lookup hb hl
  have hpend := h.traced.fated e.id
  rw [hf] at hpend
  refine ⟨?_, h.stored.commitDecide (by simp [hf]), ?_, ?_⟩
  · refine h.traced.step ⟨ha.append.sync.nodup, ha.append.sync.current, ha.append.sync.files, ha.active, ha.imms,
      ha.flushed, ha.unlinks⟩ ?_ (fun id hne => ?_) (hpend.commitDecide ha hb hp hl) (h.used_of_fate hf (by simp))
      (List.Subset.refl _) (subset_cons_self _ _) (fun _ _ _ _ => mem_cons_self)
      (fun g i c i' c' hat hat' => ?_) rfl (fun hp' => ?_) ?_
    · have hprep : Store.prepares (r.store.commitDecide e inst start).files =
          Store.prepares (r.store.append (.decision e.id inst (some (start, e.writes.length)))).files :=
        Store.prepares_sync
      rw [hprep]
      exact Store.once_append h.traced.once ha.nodup ha.current nofun
    · refine (((Store.leaves_append fun i hi => hne ?_).trans Store.leaves_sync).trans Store.leaves_add).trans
        (leaves_call hne hb rfl)
      exact (Prod.mk.inj (Option.some.inj hi)).1.symm
    · exact h.one_decision hb hp ⟨_, _, hf⟩ (Store.at_sync.mp hat) (Store.at_sync.mp hat')
    · have : r.store.poisoned = true := hp'
      rw [hp] at this
      cases this
    · rintro _ ⟨⟩
      exact ⟨e, e.prepareGen, hl, Function.update_self ..⟩
  · refine h.claimed.congr rfl rfl (fun id ws P hf' => ?_) (Store.update_claims (nil_subset _))
    by_cases hid : id = e.id
    · subst hid
      rw [Function.update_self] at hf'
      cases hf'
    · rwa [Function.update_of_ne hid] at hf'
  · refine h.told.update (by simp [hf]) (fun ws P hf' => ?_) (fun _ _ _ _ _ => mem_cons_self)
      (subset_cons_self _ _) (fun _ h _ => h) rfl rfl rfl
    rw [hf] at hf'
    cases hf'
    exact ⟨e.prepareGen, .inr ⟨some start, r.store.gen, rfl⟩⟩

theorem decision {id : I} {e : Entry I K V} {inst : Nat} {d : Option (Nat × Nat)} {p : Bool} (h : r.Sound fate)
    (hb : r.store.busy = none) (hp : r.store.poisoned = false) (hl : r.store.registry.byId.lookup id = some e)
    (hof : ∀ x, b = some x → x = .aborting id r.store.gen false) (hbp : p = true → b = none)
    (hf : Store.Fated { r.store.append (.decision id inst d) with busy := b, poisoned := p } id (fate id)) :
    Sound { r with
      store := { r.store.append (.decision id inst d) with busy := b, poisoned := p }
      attempted := id :: r.attempted } fate := by
  have ha := h.traced.aged
  obtain ⟨-, hfate⟩ := h.pending_of_lookup hb hl
  have ht : Store.Traced { r.store.append (.decision id inst d) with busy := b, poisoned := p } fate r.used
      (id :: r.attempted) := by
    refine h.traced.touch ⟨ha.append.nodup, ha.append.current, ha.append.files, ha.active, ha.imms, ha.flushed,
      ha.unlinks⟩ (Store.once_append h.traced.once ha.nodup ha.current fun _ _ _ h => by cases h)
      (fun id' hne => ?_) hf (h.used_of_fate hfate (by simp)) (subset_cons_self _ _)
      (fun _ _ _ _ => mem_cons_self) (fun g i c i' c' hat hat' => h.one_decision hb hp ⟨_, _, hfate⟩ hat hat')
      rfl hbp fun x hx => ?_
    · have happ : Leaves id' r.store (r.store.append (.decision id inst d)) :=
        Store.leaves_append fun i hi => hne (Prod.mk.inj (Option.some.inj hi)).1.symm
      have hbusy : Leaves id' (r.store.append (.decision id inst d))
          { r.store.append (.decision id inst d) with busy := b } := Store.leaves_busy fun x hx => by
        have hnone : (r.store.append (.decision id inst d)).busy = none := hb
        rw [hnone]
        refine ⟨fun heq => ?_, fun h => by cases h⟩
        have := hof x heq
        subst this
        exact absurd hx.symm hne
      cases p
      case false => exact (happ.trans hbusy).trans (hp ▸ .refl)
      case true => exact (happ.trans hbusy).trans Store.leaves_poison
    · have := hof x hx
      subst this
      exact ⟨_, _, hfate⟩
  refine ⟨ht, ?_, h.claimed.congr rfl rfl (fun _ _ _ h => h) fun _ => List.Subset.refl _, ?_⟩
  · exact h.stored.congr { h.stored.layers with } rfl rfl rfl
      (fun g items hat => (Store.at_append.mp hat).resolve_right fun h => by cases h.2.1) fun _ _ _ _ _ => .rfl
  · exact ⟨fun id' ws P c G hf => mem_cons_of_mem _ (h.told.attempted id' ws P c G hf), h.told.prepared,
      h.told.committed, h.told.aborted⟩

theorem poisoned_eq (h : r.Sound fate) (hb : r.store.busy = some b) :
    r.store.poisoned = false := by
  refine Bool.eq_false_iff.mpr fun hp => ?_
  rw [h.traced.calm hp] at hb
  cases hb

theorem stored_decided {id : I} (h : r.Sound fate)
    (hfate : ∀ id ws P start G, fate' id = .decided ws P (some start) G ↔ fate id = .decided ws P (some start) G) :
    (r.store.decided id G).Stored fate' r.dropped r.ticks := by
  rw [Store.decided]
  split
  · exact h.stored.congr { h.stored.layers with } rfl rfl rfl (fun _ _ h => h) hfate
  · exact h.stored.congr { h.stored.layers with } rfl rfl rfl (fun _ _ h => h) hfate

theorem aged_decided {id : I} (h : r.Sound fate) : (r.store.decided id G).Aged := by
  have ha := h.traced.aged
  rw [Store.decided]
  split <;> exact { ha with }

theorem traced_decided {id : I} (h : r.Sound fate) (hb : r.store.busy = some b) (hid : b.Of id)
    (hused : id ∈ r.used) (hf : (r.store.decided id b.gen).Fated id f) :
    (r.store.decided id b.gen).Traced (Function.update fate id f) r.used r.attempted := by
  have hfiles : (r.store.decided id b.gen).files = r.store.files := by rw [Store.decided]; split <;> rfl
  have hbusy : (r.store.decided id b.gen).busy = none := by rw [Store.decided]; split <;> rfl
  have hun : (r.store.decided id b.gen).unlinking = r.store.unlinking := by rw [Store.decided]; split <;> rfl
  refine h.traced.step h.aged_decided (hfiles ▸ h.traced.once)
    (fun id' hne => Store.leaves_decided (Ne.symm hne) hb hid) hf hused (List.Subset.refl _) (List.Subset.refl _)
    (fun g i c hat => h.tried (hfiles ▸ hat)) (fun g i c i' c' hat hat' => ?_) hun (fun _ => hbusy) ?_
  · rw [hfiles] at hat hat'
    exact h.traced.one id g i c i' c' hat hat'
  · rw [hbusy]
    intro b' hb'
    cases hb'

theorem lookup_decided {id id' : I} (hl : r.store.registry.byId.lookup id = some e) :
    (r.store.decided id G).registry.byId.lookup id' =
      if id' = id then none else r.store.registry.byId.lookup id' := by
  rw [Store.decided_of_lookup hl, Map.lookup_erase_eq]

theorem commitDone {id : I} {G start : Nat} (h : r.Sound fate)
    (hb : r.store.busy = some (.committed id G start)) :
    Sound { r with
      store := r.store.decided id G
      committed := ((r.store.registry.byId.lookup id).map fun e => (id, e.writes, start)).toList ++ r.committed }
      fate := by
  obtain ⟨e, P, hl, hf⟩ := h.traced.call _ hb
  have hlog := h.traced.fated id
  rw [hf] at hlog
  refine ⟨?_, h.stored_decided fun _ _ _ _ _ => .rfl, ?_, ?_⟩
  · have ht := h.traced_decided hb rfl (h.used_of_fate hf (by simp)) (f := fate id)
      (by rw [hf]; exact hlog.decided)
    rwa [Function.update_eq_self] at ht
  · exact h.claimed.decided hl (by simp [hf]) (fun _ _ => rfl) (List.Subset.refl _)
  · refine ⟨h.told.attempted, h.told.prepared, fun id' ws start' hm => ?_, fun id' hm => ?_⟩
    · rw [lookup_decided hl]
      rcases mem_append.mp hm with hm | hm
      · rw [hl, Option.map_some, Option.toList_some, mem_singleton] at hm
        cases hm
        exact ⟨if_pos rfl, P, G, hf⟩
      · obtain ⟨hl', h⟩ := h.told.committed id' ws start' hm
        rw [hl']
        exact ⟨ite_self _, h⟩
    · rw [lookup_decided hl]
      obtain ⟨hl', h⟩ := h.told.aborted id' hm
      rw [hl']
      exact ⟨ite_self _, h⟩

theorem abortDone {id : I} {G : Nat} (h : r.Sound fate) (hb : r.store.busy = some (.aborting id G true)) :
    ∃ fate', Sound { r with store := r.store.decided id G, aborted := id :: r.aborted } fate' := by
  obtain ⟨ws, P, hf⟩ := h.traced.call _ hb
  have hpend := h.traced.fated id
  rw [hf] at hpend
  obtain ⟨e, hl, -⟩ := hpend.registered
  have hatt : id ∈ r.attempted := by
    obtain ⟨-, -, ⟨i, hat⟩, -⟩ := hpend.call G true hb
    exact h.tried hat
  refine ⟨Function.update fate id (.decided ws P none G), ?_, ?_, ?_, ?_⟩
  · exact h.traced_decided hb rfl (h.used_of_fate hf (by simp)) (hpend.decided (h.poisoned_eq hb) hb)
  · exact h.stored_decided (update_eq_decided (by simp [hf]) (by simp))
  · refine h.claimed.decided hl (by simp) (fun id' hne => Function.update_of_ne hne ..) ?_
    rw [Function.update_self]
    exact nil_subset _
  · have ht : Told { r with store := r.store.decided id G }
        (Function.update fate id (.decided ws P none G)) := h.told.update (by simp [hf]) (fun ws' P' hf' => by
        rw [hf] at hf'
        cases hf'
        exact ⟨P, .inr ⟨none, G, rfl⟩⟩) (fun _ _ _ _ _ => hatt) (List.Subset.refl _)
      (fun id' hl' hne => by rw [lookup_decided hl, if_neg hne]; exact hl') rfl rfl rfl
    refine ⟨ht.attempted, ht.prepared, ht.committed, fun id' hm => ?_⟩
    rcases mem_cons.mp hm with rfl | hm
    · exact ⟨by rw [lookup_decided hl, if_pos rfl], ws, P, G, Function.update_self ..⟩
    · exact ht.aborted id' hm

theorem flush (h : r.Sound fate) (hp : r.store.poisoned = false) :
    Sound { r with store := r.store.flush } fate := by
  have hreg : r.store.flush.registry = r.store.registry := by rw [Store.flush]; split <;> rfl
  refine ⟨?_, h.stored.flush, ?_, ?_⟩
  · refine h.traced.leaves h.traced.aged.flush ?_ (fun _ => Store.leaves_flush hp) ?_ ?_ ?_ <;>
      rw [Store.flush] <;> split
    all_goals first | exact h.traced.once | rfl
  · refine h.claimed.congr hreg ?_ (fun _ _ _ h => h) fun _ => List.Subset.refl _
    rw [Store.flush]
    split
    · rfl
    · exact WalGenState.live_foldl_markFlushed _ _
  · exact ⟨h.told.attempted, h.told.prepared, fun id ws start hm => hreg ▸ h.told.committed id ws start hm,
      fun id hm => hreg ▸ h.told.aborted id hm⟩

theorem sweep (h : r.Sound fate) (hu : r.store.unlinking = [])
    (hb : ∀ b, r.store.busy = some b → b.gen ∉ r.store.gens.flushed) :
    Sound { r with store := r.store.sweep } fate := by
  have hs := WalGenState.sweep_swept r.store.gens
  obtain ⟨l, hperm, hmem⟩ := h.claimed.pins
  refine ⟨?_, ?_, ?_, ?_⟩
  · exact
      { aged := h.traced.aged.sweep
        once := h.traced.once
        fated := fun id => (h.traced.fated id).sweep h.stored.layers hu hb fun e hl =>
          hperm.mem_iff.mpr (mem_map_of_mem (f := Prod.snd) (hmem id e hl))
        spent := h.traced.spent
        tried := h.traced.tried
        one := h.traced.one
        single := by rw [Store.sweep, hu]; exact Nat.le_refl 1
        calm := h.traced.calm
        call := fun b hb => by
          have hc := h.traced.call b hb
          cases b <;> exact hc }
  · exact h.stored.congr h.stored.layers.sweep rfl rfl rfl (fun _ _ h => h) fun _ _ _ _ _ => .rfl
  · exact h.claimed.congr rfl hs.live (fun _ _ _ h => h) fun _ => List.Subset.refl _
  · exact { h.told with }

theorem unlink (h : r.Sound fate) : Sound { r with store := r.store.unlink i } fate := by
  have hat : ∀ {g f}, At (r.store.unlink i).files g f → At r.store.files g f := by
    intro g f hf
    rw [Store.unlink] at hf
    split at hf
    · exact (Store.at_filter.mp hf).1
    · exact hf
    · exact hf
  have hbyId : (r.store.unlink i).registry.byId = r.store.registry.byId := by
    rw [Store.unlink]
    split
    · rfl
    · exact (Registry.foldl_forget _ _).1
    · rfl
  have hbyKey : (r.store.unlink i).registry.byKey = r.store.registry.byKey := by
    rw [Store.unlink]
    split
    · rfl
    · exact Registry.byKey_foldl_forget _ _
    · rfl
  have hbusy : (r.store.unlink i).busy = r.store.busy := by rw [Store.unlink]; split <;> rfl
  refine ⟨?_, ?_, ?_, ?_⟩
  · refine
      { aged := h.traced.aged.unlink
        once := ?_
        fated := fun id => (h.traced.fated id).unlink h.traced.single
        spent := h.traced.spent
        tried := fun g id i c hf => h.traced.tried g id i c (hat hf)
        one := fun id g i c i' c' hf hf' => h.traced.one id g i c i' c' (hat hf) (hat hf')
        single := ?_
        calm := fun hp => ?_
        call := fun b hb => ?_ }
    · rw [Store.unlink]
      split
      · exact ((Store.prepares_filter _).map _).nodup h.traced.once
      · exact h.traced.once
      · exact h.traced.once
    · rw [Store.unlink]
      split
      · exact (length_set ..).trans_le h.traced.single
      · exact (length_eraseIdx_le ..).trans h.traced.single
      · exact h.traced.single
    · refine hbusy.trans (h.traced.calm ?_)
      rw [Store.unlink] at hp
      split at hp <;> exact hp
    · have hc := h.traced.call b (hbusy ▸ hb)
      cases b
      case preparing => exact hc
      case committed =>
        obtain ⟨e, P, hl, hf⟩ := hc
        exact ⟨e, P, hbyId ▸ hl, hf⟩
      case aborting => exact hc
  · refine h.stored.congr h.stored.layers.unlink ?_ ?_ ?_ (fun _ _ hf => hat hf) fun _ _ _ _ _ => .rfl <;>
      rw [Store.unlink] <;> split <;> rfl
  · obtain ⟨l, hperm, hmem⟩ := h.claimed.pins
    refine ⟨⟨l, ?_, fun id e hl => hmem id e (hbyId ▸ hl)⟩, fun id ws P hf w hw => ?_, h.claimed.disjoint⟩
    · rw [Store.unlink]
      split <;> exact hperm
    · rw [Registry.ownerOf, hbyKey]
      exact h.claimed.reserved id ws P hf w hw
  · exact ⟨h.told.attempted, h.told.prepared, fun id ws start hm => hbyId ▸ h.told.committed id ws start hm,
      fun id hm => hbyId ▸ h.told.aborted id hm⟩

theorem compact (h : r.Sound fate) :
    Sound { r with
      store := r.store.compact keep
      dropped := r.store.tables.filter (fun i => !keep i) ++ r.dropped } fate where
  traced := by
    have ha := h.traced.aged
    exact h.traced.leaves { ha with }
      h.traced.once (fun _ => Store.leaves_compact) rfl rfl rfl
  stored := h.stored.compact
  claimed := h.claimed.congr rfl rfl (fun _ _ _ h => h) fun _ => List.Subset.refl _
  told := { h.told with }

theorem crash {sv : Nat → Frame I K V → Bool} {s : Store I K V} {inst : I → Nat} (h : r.Sound fate)
    (hs : Store.reopen size (Store.survivors sv r.store.files) r.store.tables r.store.floor r.store.registry.maxBytes = .ok s) :
    Sound { r with store := s, inst := inst }
      fun id => (fate id).reopened (Store.survivors sv r.store.files) id := by
  have hr := Store.reopened hs
  have ht := h.traced.reopen hr (Store.aged_reopen (by rw [Store.gens_survivors]; exact h.traced.aged.nodup) hs)
  have hfree : ∀ id ws P c G, fate id = .decided ws P c G → s.registry.byId.lookup id = none := by
    intro id ws P c G hf
    have hlog := ht.fated id
    simp only [hf, Fate.reopened] at hlog
    rcases hlog.registered with hl | ⟨_, _, -, hb, -⟩
    · exact hl
    · rw [hr.busy] at hb
      cases hb
  refine ⟨ht, h.stored.reopen h.traced hr (.reopen hs), h.claimed.reopen hr ht.fated, ?_⟩
  refine ⟨fun id ws P c G hf => ?_, fun id ws hm => ?_, fun id ws start hm => ?_, fun id hm => ?_⟩
  · rcases Store.reopened_eq_decided hf with hf | ⟨-, d, hd, -⟩
    · exact h.told.attempted id ws P c G hf
    · obtain ⟨hdm, hid, -⟩ := Store.decisionFor_eq_some hd
      have hat := Store.mem_decisions.mp hdm
      rw [hid] at hat
      exact h.tried (Store.at_of_survivors hat)
  · obtain ⟨P, hf | ⟨c, G, hf⟩⟩ := h.told.prepared id ws hm
    · simp only [hf, Fate.reopened]
      split
      · exact ⟨P, .inl rfl⟩
      · exact ⟨P, .inr ⟨_, _, rfl⟩⟩
    · exact ⟨P, .inr ⟨c, G, by rw [hf]; rfl⟩⟩
  · obtain ⟨-, P, G, hf⟩ := h.told.committed id ws start hm
    exact ⟨hfree id ws P _ G hf, P, G, by rw [hf]; rfl⟩
  · obtain ⟨-, ws, P, G, hf⟩ := h.told.aborted id hm
    exact ⟨hfree id ws P _ G hf, ws, P, G, by rw [hf]; rfl⟩

end Sound

section Exec

variable [ToString I] [ToString K] {size : List (WriteEntry K V) → Nat}

end Exec

section Examples

end Examples

end OndaDb.Prepared.Run

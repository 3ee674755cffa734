import OndaDb.Prepared.Theorems.Placed

namespace OndaDb.Prepared

variable {I K V : Type}

-- What has become of an id. `P` is the generation of its prepare, `G` that of the decision, which
-- names the sequences if it is a commit.
inductive Fate (K V : Type)
  | absent
  | writing (ws : List (WriteEntry K V)) (P : Nat)
  | pending (ws : List (WriteEntry K V)) (P : Nat)
  | decided (ws : List (WriteEntry K V)) (P : Nat) (c : Option Nat) (G : Nat)

def Busy.Of (id : I) : Busy I K V → Prop
  | preparing e _ _ => e.id = id
  | committed id' _ _ => id' = id
  | aborting id' _ _ => id' = id

theorem Busy.Of.unique {b : Busy I K V} {id id' : I} (h : b.Of id) (h' : b.Of id') : id = id' := by
  cases b
  case preparing => exact h.symm.trans h'
  case committed => exact h.symm.trans h'
  case aborting => exact h.symm.trans h'

namespace Store

variable [DecidableEq I] {s s' : Store I K V} {id : I} {ws : List (WriteEntry K V)} {P G g : Nat}
  {c : Option Nat}

def NoPrepare (s : Store I K V) (id : I) : Prop :=
  ∀ g i ws, ¬ At s.files g (.prepare id i ws)

def OnlyPrepare (s : Store I K V) (id : I) (ws : List (WriteEntry K V)) (P : Nat) : Prop :=
  ∀ g i ws', At s.files g (.prepare id i ws') → g = P ∧ ws' = ws

def HasPrepare (s : Store I K V) (id : I) (ws : List (WriteEntry K V)) (P : Nat) : Prop :=
  ∃ i, SyncedAt s.files P (.prepare id i ws)

structure Writing (s : Store I K V) (id : I) (ws : List (WriteEntry K V)) (P : Nat) : Prop where
  only : s.OnlyPrepare id ws P
  free : s.registry.byId.lookup id = none
  undecided : ∀ g i c, ¬ At s.files g (.decision id i c)
  call : s.poisoned ∨ ∃ e i b, s.busy = some (.preparing e i b) ∧ e.id = id ∧ e.writes = ws ∧
    e.prepareGen = P ∧ ¬ s.Unlinks P ∧ At s.files P (.prepare id i ws) ∧ (b = true → s.HasPrepare id ws P)

-- An abort that did not come through may have left decisions behind; a commit only where the
-- database is poisoned.
structure Pending (s : Store I K V) (id : I) (ws : List (WriteEntry K V)) (P : Nat) : Prop where
  only : s.OnlyPrepare id ws P
  registered : ∃ e, s.registry.byId.lookup id = some e ∧ e.id = id ∧ e.writes = ws ∧ e.prepareGen = P
  has : s.HasPrepare id ws P
  stays : ¬ s.Unlinks P
  aborts : ∀ g i c, At s.files g (.decision id i c) → c = none ∨ s.poisoned ∧ s.floor ≤ g
  older : s.poisoned = false → (∀ g b, s.busy ≠ some (.aborting id g b)) →
    ∀ g i c, At s.files g (.decision id i c) → g < s.gen
  call : ∀ g b, s.busy = some (.aborting id g b) → ¬ s.Unlinks g ∧ g ≤ s.gen ∧
    (∃ i, At s.files g (.decision id i none)) ∧
    (b = true → ∃ i, SyncedAt s.files g (.decision id i none)) ∧ ∀ g' i c, At s.files g' (.decision id i c) → g' ≤ g

structure Resolves (files : List (File I K V)) (id : I) (c : Option Nat) (G : Nat) : Prop where
  has : ∃ i d, SyncedAt files G (.decision id i d) ∧ d.map Prod.fst = c
  newest : ∀ g i d, At files g (.decision id i d) → g < G ∨ g = G ∧ d.map Prod.fst = c

-- What keeps the decision on disk as long as the prepare is.
inductive Ordered (s : Store I K V) (id : I) (P G : Nat) : Prop
  | call {start : Nat} : s.busy = some (.committed id G start) → s.registry.byId.lookup id = some e → e.prepareGen = P →
    ¬ s.Unlinks P → ¬ s.Unlinks G → Ordered s id P G
  | tomb : t ∈ s.gens.tombs → t.prepareGen = P → t.decisionGen = G → t.prepareDeleted = false →
    t.decisionDeleted = false → ¬ s.Unlinks P → ¬ s.Unlinks G → Ordered s id P G
  | leaving : u ∈ s.unlinking → P ∈ u.1 → Before P G u.1 → Ordered s id P G

structure Logged (s : Store I K V) (id : I) (ws : List (WriteEntry K V)) (P : Nat) (c : Option Nat) (G : Nat) :
    Prop where
  only : s.OnlyPrepare id ws P
  registered : s.registry.byId.lookup id = none ∨ ∃ start e, c = some start ∧
    s.busy = some (.committed id G start) ∧ s.registry.byId.lookup id = some e ∧ e.id = id ∧ e.writes = ws ∧
    e.prepareGen = P
  resolves : ¬ s.NoPrepare id → Resolves s.files id c G
  ordered : ¬ s.NoPrepare id → s.Ordered id P G
  above : s.floor ≤ G → s.HasPrepare id ws P ∧ ¬ s.Unlinks P

def Fated (s : Store I K V) (id : I) : Fate K V → Prop
  | .absent => s.NoPrepare id ∧ s.registry.byId.lookup id = none
  | .writing ws P => s.Writing id ws P
  | .pending ws P => s.Pending id ws P
  | .decided ws P c G => s.Logged id ws P c G

structure Leaves (id : I) (s s' : Store I K V) : Prop where
  at_ : ∀ g f i, f.owner = some (id, i) → (At s'.files g f ↔ At s.files g f)
  synced : ∀ g f i, f.owner = some (id, i) → SyncedAt s.files g f → SyncedAt s'.files g f
  lookup : s'.registry.byId.lookup id = s.registry.byId.lookup id
  busy : ∀ b, b.Of id → (s'.busy = some b ↔ s.busy = some b)
  poisoned : s.poisoned → s'.poisoned ∧ s'.floor = s.floor
  floor : s.floor ≤ s'.floor
  gen : s.gen ≤ s'.gen
  unlinking : s'.unlinking = s.unlinking
  tombs : ∀ t ∈ s.gens.tombs, t ∈ s'.gens.tombs

namespace Leaves

variable (h : Leaves id s s')
include h

theorem unlinks : s'.Unlinks g ↔ s.Unlinks g := by
  rw [Unlinks, Unlinks, h.unlinking]

theorem noPrepare (hn : s.NoPrepare id) : s'.NoPrepare id :=
  fun g i ws hf => hn g i ws ((h.at_ g _ i rfl).mp hf)

theorem only (ho : s.OnlyPrepare id ws P) : s'.OnlyPrepare id ws P :=
  fun g i ws' hf => ho g i ws' ((h.at_ g _ i rfl).mp hf)

theorem has (hp : s.HasPrepare id ws P) : s'.HasPrepare id ws P := by
  obtain ⟨i, hs⟩ := hp
  exact ⟨i, h.synced P _ i rfl hs⟩

theorem writing (hw : s.Writing id ws P) : s'.Writing id ws P where
  only := h.only hw.only
  free := h.lookup.trans hw.free
  undecided := fun g i c hf => hw.undecided g i c ((h.at_ g _ i rfl).mp hf)
  call := by
    rcases hw.call with hp | ⟨e, i, b, hb, hid, hws, hP, hu, ha, hs⟩
    · exact .inl (h.poisoned hp).1
    · exact .inr ⟨e, i, b, (h.busy (.preparing e i b) hid).mpr hb, hid, hws, hP, fun hu' => hu (h.unlinks.mp hu'),
        (h.at_ P _ i rfl).mpr ha, fun hb => h.has (hs hb)⟩

theorem pending (hp : s.Pending id ws P) : s'.Pending id ws P where
  only := h.only hp.only
  registered := by rw [h.lookup]; exact hp.registered
  has := h.has hp.has
  stays := fun hu => hp.stays (h.unlinks.mp hu)
  aborts := fun g i c hf => by
    refine (hp.aborts g i c ((h.at_ g _ i rfl).mp hf)).imp_right fun hpo => ?_
    rw [(h.poisoned hpo.1).2]
    exact ⟨(h.poisoned hpo.1).1, hpo.2⟩
  older := fun hpo hb g i c hf => by
    refine (hp.older ?_ ?_ g i c ((h.at_ g _ i rfl).mp hf)).trans_le h.gen
    · refine Bool.eq_false_iff.mpr fun hpo' => ?_
      rw [(h.poisoned hpo').1] at hpo
      cases hpo
    · exact fun g b hb' => hb g b ((h.busy (.aborting id g b) rfl).mpr hb')
  call := fun g b hb => by
    obtain ⟨hu, hg, ⟨i, hat⟩, hs, hle⟩ := hp.call g b ((h.busy (.aborting id g b) rfl).mp hb)
    refine ⟨fun hu' => hu (h.unlinks.mp hu'), hg.trans h.gen, ⟨i, (h.at_ g _ i rfl).mpr hat⟩,
      fun hb => ?_, fun g' i c hf => ?_⟩
    · obtain ⟨i, hs⟩ := hs hb
      exact ⟨i, h.synced g _ i rfl hs⟩
    · exact hle g' i c ((h.at_ g' _ i rfl).mp hf)

theorem resolves (hr : Resolves s.files id c G) : Resolves s'.files id c G where
  has := by
    obtain ⟨i, d, hs, hd⟩ := hr.has
    exact ⟨i, d, h.synced G _ i rfl hs, hd⟩
  newest := fun g i d hf => hr.newest g i d ((h.at_ g _ i rfl).mp hf)

theorem ordered (ho : s.Ordered id P G) : s'.Ordered id P G := by
  cases ho
  case call start hb hl hP hu hu' =>
    exact .call ((h.busy (.committed id G start) rfl).mpr hb) (h.lookup.trans hl) hP (fun h' => hu (h.unlinks.mp h'))
      fun h' => hu' (h.unlinks.mp h')
  case tomb ht hP hG hd hd' hu hu' =>
    exact .tomb (h.tombs _ ht) hP hG hd hd' (fun h' => hu (h.unlinks.mp h')) fun h' => hu' (h.unlinks.mp h')
  case leaving hu hP hb => exact .leaving (h.unlinking ▸ hu) hP hb

theorem logged (hl : s.Logged id ws P c G) : s'.Logged id ws P c G where
  only := h.only hl.only
  registered := by
    rw [h.lookup]
    refine hl.registered.imp_right fun ⟨start, e, hc, hb, hr⟩ => ?_
    exact ⟨start, e, hc, (h.busy (.committed id G start) rfl).mpr hb, hr⟩
  resolves := fun hn => h.resolves (hl.resolves fun hn' => hn (h.noPrepare hn'))
  ordered := fun hn => h.ordered (hl.ordered fun hn' => hn (h.noPrepare hn'))
  above := fun hf => by
    obtain ⟨hp, hu⟩ := hl.above (h.floor.trans hf)
    exact ⟨h.has hp, fun h' => hu (h.unlinks.mp h')⟩

theorem fated (hf : s.Fated id f) : s'.Fated id f := by
  cases f
  case absent => exact ⟨h.noPrepare hf.1, h.lookup.trans hf.2⟩
  case writing => exact h.writing hf
  case pending => exact h.pending hf
  case decided => exact h.logged hf

omit h in
theorem refl : Leaves id s s :=
  ⟨fun _ _ _ _ => .rfl, fun _ _ _ _ h => h, rfl, fun _ _ => .rfl, fun h => ⟨h, rfl⟩, Nat.le_refl _,
    Nat.le_refl _, rfl, fun _ h => h⟩

theorem trans (h' : Leaves id s' s'') : Leaves id s s'' where
  at_ := fun g f i hf => (h'.at_ g f i hf).trans (h.at_ g f i hf)
  synced := fun g f i hf hs => h'.synced g f i hf (h.synced g f i hf hs)
  lookup := h'.lookup.trans h.lookup
  busy := fun b hb => (h'.busy b hb).trans (h.busy b hb)
  poisoned := fun hp => ⟨(h'.poisoned (h.poisoned hp).1).1,
    (h'.poisoned (h.poisoned hp).1).2.trans (h.poisoned hp).2⟩
  floor := h.floor.trans h'.floor
  gen := h.gen.trans h'.gen
  unlinking := h'.unlinking.trans h.unlinking
  tombs := fun t ht => h'.tombs t (h.tombs t ht)

end Leaves

theorem leaves_append (hf : ∀ i, f.owner ≠ some (id, i)) : Leaves id s (s.append f) :=
  { (Leaves.refl : Leaves id s s) with
    at_ := fun g f' i hi => by
      rw [at_append]
      refine ⟨fun h => h.resolve_right ?_, .inl⟩
      rintro ⟨-, rfl, -⟩
      exact hf i hi
    synced := fun _ _ _ _ => syncedAt_append }

theorem leaves_sync : Leaves id s (s.sync g) :=
  { (Leaves.refl : Leaves id s s) with
    at_ := fun _ _ _ _ => at_sync
    synced := fun _ _ _ _ => syncedAt_sync }

theorem leaves_busy (hb : ∀ x, x.Of id → (b = some x ↔ s.busy = some x)) :
    Leaves id s { s with busy := b } :=
  { (Leaves.refl : Leaves id s s) with busy := hb }

theorem leaves_poison : Leaves id s { s with poisoned := true } :=
  { (Leaves.refl : Leaves id s s) with poisoned := fun _ => ⟨rfl, rfl⟩ }

theorem leaves_add : Leaves id s (s.add items) :=
  { (Leaves.refl : Leaves id s s) with }

theorem leaves_rotate : Leaves id s s.rotate :=
  { (Leaves.refl : Leaves id s s) with
    at_ := fun _ _ _ _ => at_new
    synced := fun _ _ _ _ => syncedAt_new.mpr
    gen := Nat.le_succ _ }

theorem leaves_flush (hp : s.poisoned = false) : Leaves id s s.flush := by
  rw [flush]
  split
  case h_1 => exact .refl
  case h_2 imm imms heq =>
    exact { (Leaves.refl : Leaves id s s) with
      poisoned := fun h => by rw [hp] at h; cases h
      floor := Nat.le_max_left _ _
      tombs := fun t ht => (WalGenState.tombs_foldl_markFlushed imm.gens s.gens).symm ▸ ht }

theorem leaves_compact : Leaves id s (s.compact keep) :=
  { (Leaves.refl : Leaves id s s) with }

theorem leaves_prepareDone [LinearOrder K] (hne : e.id ≠ id) (hb : s.busy = some (.preparing e i b)) :
    Leaves id s (s.prepareDone e) :=
  { (Leaves.refl : Leaves id s s) with
    lookup := by
      rw [prepareDone, Registry.register, Map.lookup_insert_eq, if_neg hne.symm]
    busy := fun x hx => by
      rw [hb]
      refine ⟨fun h => (by cases h), ?_⟩
      rintro ⟨⟩
      exact absurd hx hne }

theorem leaves_decided [LinearOrder K] {id' : I} (hne : id' ≠ id) (hb : s.busy = some b) (hid : b.Of id') :
    Leaves id s (s.decided id' g) := by
  have hbusy : ∀ x : Busy I K V, x.Of id → ((none : Option (Busy I K V)) = some x ↔ s.busy = some x) := by
    intro x hx
    rw [hb]
    refine ⟨fun h => (by cases h), ?_⟩
    rintro ⟨⟩
    exact absurd (hid.unique hx) hne
  rw [decided]
  rcases hr : s.registry.resolve id' with _ | ⟨e, reg⟩
  · exact { (Leaves.refl : Leaves id s s) with busy := hbusy }
  · obtain ⟨e', hl, heq⟩ := Option.map_eq_some_iff.mp hr
    rw [Prod.mk.injEq] at heq
    obtain ⟨rfl, rfl⟩ := heq
    exact { (Leaves.refl : Leaves id s s) with
      lookup := by rw [Map.lookup_erase_eq, if_neg hne.symm]
      busy := hbusy
      tombs := fun t ht => List.mem_append_left _ ht }

end Store

end OndaDb.Prepared

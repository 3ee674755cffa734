import OndaDb.Prepared.Theorems.Recovery
import OndaDb.Txn.Theorems.Validate

namespace OndaDb.Prepared

open List

variable {I K V : Type}

def Busy.Decides (id : I) : Busy I K V → Prop
  | preparing _ _ _ => False
  | committed id' _ _ => id' = id
  | aborting id' _ _ => id' = id

theorem Busy.Decides.unique {b : Busy I K V} {id id' : I} (h : b.Decides id) (h' : b.Decides id') :
    id = id' := by
  cases b
  case preparing => exact h.elim
  case committed => exact h.symm.trans h'
  case aborting => exact h.symm.trans h'

namespace Store

variable {s s' : Store I K V} {inst : I → Nat} {f : Frame I K V} {g : Nat}

-- No two prepares on disk share an id, and no two frames with one id belong to different prepares.
structure Distinct (files : List (File I K V)) : Prop where
  once : ((prepares files).map RecoveredPrepare.id).Nodup
  same : ∀ g g' f f' id i i', At files g f → At files g' f' → f.owner = some (id, i) →
    f'.owner = some (id, i') → i = i'

namespace Distinct

variable {files : List (File I K V)}

theorem append (h : Distinct s.files) (hn : (s.files.map File.gen).Nodup)
    (hg : s.gen ∈ s.files.map File.gen)
    (hp : ∀ id i ws, f = .prepare id i ws → ¬ s.Holds id)
    (ho : ∀ id i, f.owner = some (id, i) → ∀ g f' i', At s.files g f' → f'.owner = some (id, i') → i' = i) :
    Distinct (s.append f).files where
  once := once_append h.once hn hg fun id i ws hf g i ws' hat => hp id _ ws hf ⟨g, _, i, hat, rfl⟩
  same := by
    intro g₁ g₂ f₁ f₂ id i₁ i₂ h₁ h₂ ho₁ ho₂
    rcases at_append.mp h₁ with hf₁ | ⟨-, rfl, -⟩ <;> rcases at_append.mp h₂ with hf₂ | ⟨-, rfl, -⟩
    · exact h.same _ _ _ _ _ _ _ hf₁ hf₂ ho₁ ho₂
    · exact ho _ _ ho₂ _ _ _ hf₁ ho₁
    · exact (ho _ _ ho₁ _ _ _ hf₂ ho₂).symm
    · rw [ho₁] at ho₂
      simpa using ho₂

theorem of_sublist (h : Distinct files) (hs : (prepares files').Sublist (prepares files))
    (ha : ∀ g f, At files' g f → At files g f) :
    Distinct files' where
  once := (hs.map _).nodup h.once
  same := fun _ _ _ _ _ _ _ h₁ h₂ => h.same _ _ _ _ _ _ _ (ha _ _ h₁) (ha _ _ h₂)

theorem sync (h : Distinct s.files) : Distinct (s.sync g).files :=
  h.of_sublist (by rw [prepares_sync]) fun _ _ => at_sync.mp

theorem new (h : Distinct files) : Distinct (files ++ [⟨g, []⟩]) :=
  h.of_sublist (by rw [prepares_new]) fun _ _ => at_new.mp

theorem filter (h : Distinct files) : Distinct (files.filter (·.gen ≠ g)) :=
  h.of_sublist (prepares_filter _) fun _ _ hf => (at_filter.mp hf).1

theorem survivors (h : Distinct files) (sv : Nat → Frame I K V → Bool) : Distinct (survivors sv files) :=
  h.of_sublist (prepares_survivors sv) fun _ _ => at_of_survivors

end Distinct

variable [DecidableEq I]

-- What the memory of the database has on a frame in generation `g`.
inductive Tracked (s : Store I K V) (inst : I → Nat) (g : Nat) : Frame I K V → Prop
  | poisoned {f : Frame I K V} : s.poisoned → Tracked s inst g f
  | data         : Tracked s inst g (.data items)
  | preparing    : s.busy = some (.preparing e i b) → e.prepareGen = g → Tracked s inst g (.prepare e.id i ws)
  | registered {id : I} : s.registry.byId.lookup id = some e → e.prepareGen = g →
    Tracked s inst g (.prepare id (inst id) ws)
  | deciding {id : I} : (s.registry.byId.lookup id).isSome → s.busy = some b → b.Decides id → b.gen = g →
    Tracked s inst g (.decision id (inst id) c)
  | prepareTomb  : t ∈ s.gens.tombs → t.prepareGen = g → (t.prepareDeleted → s.Unlinks g) →
    Tracked s inst g (.prepare t.id i ws)
  | decisionTomb : t ∈ s.gens.tombs → t.decisionGen = g → (t.decisionDeleted → s.Unlinks g) →
    Tracked s inst g (.decision t.id i c)
  | leaving {f : Frame I K V} {id : I} : u ∈ s.unlinking → id ∈ u.2 → g ∈ u.1 → f.owner = some (id, i) →
    Tracked s inst g f

structure Carries (b b' : Option (Busy I K V)) : Prop where
  preparing : ∀ e i p, b = some (.preparing e i p) → ∃ p', b' = some (.preparing e i p')
  deciding : ∀ x id, b = some x → x.Decides id → ∃ x', b' = some x' ∧ x'.Decides id ∧ x'.gen = x.gen

omit [DecidableEq I] in
theorem Carries.refl (b : Option (Busy I K V)) : Carries b b :=
  ⟨fun _ _ p h => ⟨p, h⟩, fun x _ h hd => ⟨x, h, hd, rfl⟩⟩

omit [DecidableEq I] in
theorem Carries.of_none (b : Option (Busy I K V)) : Carries none b :=
  ⟨nofun, nofun⟩

omit [DecidableEq I] in
theorem Carries.prepareSync :
    Carries (some (.preparing e i b)) (some (.preparing e i b')) :=
  ⟨fun _ _ _ h => by cases h; exact ⟨b', rfl⟩, fun _ _ h hd => by cases h; exact hd.elim⟩

omit [DecidableEq I] in
theorem Carries.abortSync {id : I} :
    Carries (some (.aborting id g b : Busy I K V)) (some (.aborting id g b')) :=
  ⟨nofun, fun _ _ h hd => by cases h; exact ⟨_, rfl, hd, rfl⟩⟩

theorem Tracked.of_registered {id : I} (hl : s.registry.byId.lookup id = some e) (he : e.prepareGen = g)
    (hi : inst id = i) :
    Tracked s inst g (.prepare id i ws) :=
  hi ▸ .registered hl he

theorem Tracked.mono (h : Tracked s inst g f) (hr : s'.registry.byId = s.registry.byId)
    (hg : s'.gens.tombs = s.gens.tombs) (hu : s'.unlinking = s.unlinking) (hb : Carries s.busy s'.busy)
    (hp : s'.poisoned = s.poisoned) : Tracked s' inst g f := by
  have hun : ∀ g, s.Unlinks g → s'.Unlinks g := fun g h => by rw [Unlinks, hu]; exact h
  cases h
  case poisoned h => exact .poisoned (hp ▸ h)
  case data => exact .data
  case preparing hb' he =>
    obtain ⟨p', hb'⟩ := hb.preparing _ _ _ hb'
    exact .preparing hb' he
  case registered hl he => exact .registered (hr ▸ hl) he
  case deciding hl hb' hd he =>
    obtain ⟨x', hb', hd', hg'⟩ := hb.deciding _ _ hb' hd
    exact .deciding (hr ▸ hl) hb' hd' (hg'.trans he)
  case prepareTomb ht he hd => exact .prepareTomb (hg ▸ ht) he fun h => hun _ (hd h)
  case decisionTomb ht he hd => exact .decisionTomb (hg ▸ ht) he fun h => hun _ (hd h)
  case leaving hu' hid hm ho => exact .leaving (hu ▸ hu') hid hm ho

structure Books (s : Store I K V) : Prop where
  entry : ∀ id e, s.registry.byId.lookup id = some e → e.id = id
  fresh : ∀ id, (s.registry.byId.lookup id).isSome → id ∉ s.registry.retiring
  tombs : ∀ t ∈ s.gens.tombs, t.id ∈ s.registry.retiring
  leaving : ∀ u ∈ s.unlinking, ∀ id ∈ u.2, id ∈ s.registry.retiring
  apart : (s.unlinking.flatMap (·.2) ++ s.gens.tombs.map (·.id)).Nodup
  preparing : ∀ e i b, s.busy = some (.preparing e i b) → s.registry.knows e.id = false
  deciding : ∀ b id, s.busy = some b → b.Decides id → (s.registry.byId.lookup id).isSome
  single : s.unlinking.length ≤ 1

structure Kept (s : Store I K V) (inst : I → Nat) : Prop where
  aged : s.Aged
  distinct : Distinct s.files
  books : s.Books
  tracked : ∀ g f, At s.files g f → Tracked s inst g f

namespace Kept

theorem knows {id : I} (h : s.Kept inst) (hb : s.busy = none) (hp : s.poisoned = false)
    (hid : s.Holds id) : s.registry.knows id := by
  obtain ⟨g, f, i, hf, ho⟩ := hid
  have hr : id ∈ s.registry.retiring → s.registry.knows id := fun h => by simp [Registry.knows, h]
  cases h.tracked g f hf
  case poisoned hp' => simp [hp] at hp'
  case data => cases ho
  case preparing hb' _ => rw [hb] at hb'; cases hb'
  case deciding hb' _ _ => rw [hb] at hb'; cases hb'
  case registered hl _ =>
    obtain ⟨rfl, -⟩ : _ = id ∧ _ = i := by simpa [Frame.owner] using ho
    simp [Registry.knows, hl]
  case prepareTomb ht _ _ =>
    obtain ⟨rfl, -⟩ : _ = id ∧ _ = i := by simpa [Frame.owner] using ho
    exact hr (h.books.tombs _ ht)
  case decisionTomb ht _ _ =>
    obtain ⟨rfl, -⟩ : _ = id ∧ _ = i := by simpa [Frame.owner] using ho
    exact hr (h.books.tombs _ ht)
  case leaving u _ _ hu hm _ ho' =>
    obtain ⟨rfl, -⟩ : _ = id ∧ _ = i := by simpa using ho'.symm.trans ho
    exact hr (h.books.leaving u hu _ hm)

theorem registered {id : I} (h : s.Kept inst) (hp : s.poisoned = false)
    (hl : (s.registry.byId.lookup id).isSome) (hf : At s.files g f) (ho : f.owner = some (id, i)) :
    i = inst id ∧ ((∃ ws, f = .prepare id i ws ∧ ∃ e, s.registry.byId.lookup id = some e ∧ e.prepareGen = g) ∨
      ∃ c b, f = .decision id i c ∧ s.busy = some b ∧ b.Decides id ∧ b.gen = g) := by
  have hr := h.books.fresh id hl
  cases h.tracked g f hf
  case poisoned hp' => simp [hp] at hp'
  case data => cases ho
  case preparing hb _ =>
    obtain ⟨rfl, -⟩ : _ = id ∧ _ = i := by simpa [Frame.owner] using ho
    have := h.books.preparing _ _ _ hb
    simp [Registry.knows, hl] at this
  case deciding hl' hb hd hg =>
    obtain ⟨rfl, rfl⟩ : _ = id ∧ _ = i := by simpa [Frame.owner] using ho
    exact ⟨rfl, .inr ⟨_, _, rfl, hb, hd, hg⟩⟩
  case registered hl' hg =>
    obtain ⟨rfl, rfl⟩ : _ = id ∧ _ = i := by simpa [Frame.owner] using ho
    exact ⟨rfl, .inl ⟨_, rfl, _, hl', hg⟩⟩
  case prepareTomb ht _ _ =>
    obtain ⟨rfl, -⟩ : _ = id ∧ _ = i := by simpa [Frame.owner] using ho
    exact absurd (h.books.tombs _ ht) hr
  case decisionTomb ht _ _ =>
    obtain ⟨rfl, -⟩ : _ = id ∧ _ = i := by simpa [Frame.owner] using ho
    exact absurd (h.books.tombs _ ht) hr
  case leaving u _ _ hu hm _ ho' =>
    obtain ⟨rfl, -⟩ : _ = id ∧ _ = i := by simpa using ho'.symm.trans ho
    exact absurd (h.books.leaving u hu _ hm) hr

theorem commit (h : s.Kept inst) : (s.commit items).Kept inst where
  aged := ⟨h.aged.append.nodup, h.aged.append.current, h.aged.append.files, h.aged.active,
    h.aged.imms, h.aged.flushed, h.aged.unlinks⟩
  distinct := h.distinct.append h.aged.nodup h.aged.current nofun
    nofun
  books := { h.books with }
  tracked := fun g f hf => by
    rcases at_append.mp hf with hf | ⟨-, rfl, -⟩
    · exact (h.tracked g f hf).mono rfl rfl rfl (.refl _) rfl
    · exact .data

theorem items {items : List (Item I K V)} (h : s.Kept inst) :
    Kept { s with active := { s.active with items := items } } inst where
  aged := { h.aged with }
  __ := h
  books := { h.books with }
  tracked := fun g f hf => (h.tracked g f hf).mono rfl rfl rfl (.refl _) rfl

theorem synced (h : s.Kept inst) (hb : Carries s.busy b) (hb' : Carries b s.busy) :
    Kept { s.sync g with busy := b } inst where
  aged := ⟨h.aged.sync.nodup, h.aged.sync.current, h.aged.sync.files, h.aged.active, h.aged.imms,
    h.aged.flushed, h.aged.unlinks⟩
  distinct := h.distinct.sync
  books :=
    { entry := h.books.entry
      fresh := h.books.fresh
      tombs := h.books.tombs
      leaving := h.books.leaving
      apart := h.books.apart
      preparing := fun e i p heq => by
        obtain ⟨p', hp'⟩ := hb'.preparing e i p heq
        exact h.books.preparing e i p' hp'
      deciding := fun x id heq hd => by
        obtain ⟨x', hx', hd', -⟩ := hb'.deciding x id heq hd
        exact h.books.deciding x' id hx' hd'
      single := h.books.single }
  tracked := fun g f hf => (h.tracked g f (at_sync.mp hf)).mono rfl rfl rfl hb rfl

theorem poison (h : s.Kept inst) : Kept { s with busy := none, poisoned := true } inst where
  aged := { h.aged with }
  __ := h
  books := ⟨h.books.entry, h.books.fresh, h.books.tombs, h.books.leaving, h.books.apart,
    nofun, nofun, h.books.single⟩
  tracked := fun _ _ _ => .poisoned rfl

theorem prepareAppend {id : I} (h : s.Kept inst) (hb : s.busy = none) (hp : s.poisoned = false)
    (hk : s.registry.knows id = false) :
    (s.prepareAppend size id i ws).Kept inst where
  aged := ⟨h.aged.append.nodup, h.aged.append.current, h.aged.append.files, h.aged.active,
    h.aged.imms, h.aged.flushed, h.aged.unlinks⟩
  distinct := by
    have hid : ¬ s.Holds id := fun hid => by simp [h.knows hb hp hid] at hk
    refine h.distinct.append h.aged.nodup h.aged.current ?_ ?_
    · rintro _ _ _ ⟨⟩
      exact hid
    · rintro _ _ ⟨⟩ g f' i' hf ho
      exact absurd ⟨g, f', i', hf, ho⟩ hid
  books := ⟨h.books.entry, h.books.fresh, h.books.tombs, h.books.leaving, h.books.apart,
    fun _ _ _ heq => by cases heq; exact hk, fun _ _ heq hd => by cases heq; exact hd.elim,
    h.books.single⟩
  tracked := fun g f hf => by
    rcases at_append.mp hf with hf | ⟨rfl, rfl, -⟩
    · exact (h.tracked g f hf).mono rfl rfl rfl (hb ▸ .of_none _) rfl
    · exact Tracked.preparing (e := ⟨id, ws, size ws, s.gen⟩) (i := i) (b := false) rfl rfl

theorem prepareDone [LinearOrder K] (h : s.Kept inst) (hb : s.busy = some (.preparing e i p)) :
    (s.prepareDone e).Kept (fun id => if id = e.id then i else inst id) where
  aged := { h.aged with }
  __ := h
  books := by
    have hk := h.books.preparing _ _ _ hb
    simp only [Registry.knows, decide_eq_false_iff_not, not_or] at hk
    refine ⟨?_, ?_, h.books.tombs, h.books.leaving, h.books.apart, nofun,
      nofun, h.books.single⟩
    · intro id e' hl
      simp only [Store.prepareDone, Registry.register, Map.lookup_insert_eq] at hl
      split at hl
      case isTrue heq => exact Option.some.inj hl ▸ heq.symm
      case isFalse => exact h.books.entry id e' hl
    · intro id hl
      simp only [Store.prepareDone, Registry.register, Map.lookup_insert_eq] at hl ⊢
      split at hl
      case isTrue heq => exact heq ▸ hk.2
      case isFalse => exact h.books.fresh id hl
  tracked := fun g f hf => by
    have hk := h.books.preparing _ _ _ hb
    simp only [Registry.knows, decide_eq_false_iff_not, not_or] at hk
    cases h.tracked g f hf
    case poisoned h => exact .poisoned h
    case data => exact .data
    case preparing hb' he =>
      rw [hb] at hb'
      cases hb'
      have hreg : (s.prepareDone e).registry.byId.lookup e.id = some e := by
        simp [Store.prepareDone, Registry.register]
      exact .of_registered hreg he (if_pos rfl)
    case registered e' ws id hl he =>
      have hne : id ≠ e.id := fun heq => hk.1 (by rw [← heq, hl]; rfl)
      have hreg : (s.prepareDone e).registry.byId.lookup id = some e' := by
        simp only [Store.prepareDone, Registry.register, Map.lookup_insert_eq, if_neg hne]
        exact hl
      exact .of_registered hreg he (if_neg hne)
    case deciding hb' hd _ => rw [hb] at hb'; cases hb'; exact hd.elim
    case prepareTomb ht he hd => exact .prepareTomb ht he hd
    case decisionTomb ht he hd => exact .decisionTomb ht he hd
    case leaving hu hid hm ho => exact .leaving hu hid hm ho

theorem decision {id : I} {b : Busy I K V} (h : s.Kept inst) (hb : s.busy = none) (hp : s.poisoned = false)
    (hl : (s.registry.byId.lookup id).isSome) (hd : b.Decides id) (hg : b.gen = s.gen) :
    Kept { s.append (.decision id (inst id) c) with busy := some b } inst where
  aged := ⟨h.aged.append.nodup, h.aged.append.current, h.aged.append.files, h.aged.active,
    h.aged.imms, h.aged.flushed, h.aged.unlinks⟩
  distinct := by
    refine h.distinct.append h.aged.nodup h.aged.current nofun ?_
    rintro _ _ ⟨⟩ g f' i' hf ho
    exact (h.registered hp hl hf ho).1
  books :=
    { entry := h.books.entry
      fresh := h.books.fresh
      tombs := h.books.tombs
      leaving := h.books.leaving
      apart := h.books.apart
      preparing := fun e i p heq => by cases heq; exact hd.elim
      deciding := fun x id' heq hd' => by
        cases heq
        exact hd.unique hd' ▸ hl
      single := h.books.single }
  tracked := fun g f hf => by
    rcases at_append.mp hf with hf | ⟨rfl, rfl, -⟩
    · exact (h.tracked g f hf).mono rfl rfl rfl (hb ▸ .of_none _) rfl
    · exact Tracked.deciding (b := b) hl rfl hd hg

theorem decisionFails {id : I} (h : s.Kept inst) (hb : s.busy = none) (hp : s.poisoned = false)
    (hl : (s.registry.byId.lookup id).isSome) :
    Kept { s.append (.decision id (inst id) c) with poisoned := true } inst := by
  have hk := (h.decision (b := .aborting id s.gen false) (c := c) hb hp hl rfl rfl).poison
  exact ⟨⟨hk.aged.nodup, hk.aged.current, hk.aged.files, h.aged.active, h.aged.imms, h.aged.flushed,
    h.aged.unlinks⟩, hk.distinct, { h.books with }, fun _ _ _ => .poisoned rfl⟩

theorem commitDecide {id : I} {e : Entry I K V} {start : Nat} (h : s.Kept inst) (hb : s.busy = none)
    (hp : s.poisoned = false) (hl : s.registry.byId.lookup id = some e) :
    (s.commitDecide e (inst id) start).Kept inst := by
  obtain rfl := h.books.entry id e hl
  have hk := h.decision (b := .committed e.id s.gen start) (c := some (start, e.writes.length)) hb hp
    (Option.isSome_of_mem hl) rfl rfl
  exact (hk.synced (.refl _) (.refl _)).items

theorem decided {id : I} {b : Busy I K V} [LinearOrder K] (h : s.Kept inst) (hb : s.busy = some b)
    (hd : b.Decides id) : (s.decided id b.gen).Kept inst := by
  obtain ⟨e, hl⟩ := Option.isSome_iff_exists.mp (h.books.deciding b id hb hd)
  have hnew := h.books.fresh id (Option.isSome_of_mem hl)
  simp only [Store.decided, Registry.resolve, hl, Option.map_some]
  refine ⟨{ h.aged with }, h.distinct, ⟨?_, ?_, ?_, ?_, ?_, nofun,
    nofun, h.books.single⟩, fun g f hf => ?_⟩
  · intro id' e' hl'
    simp only [Map.lookup_erase_eq] at hl'
    split at hl'
    case isTrue => cases hl'
    case isFalse => exact h.books.entry id' e' hl'
  · intro id' hl'
    simp only [Map.lookup_erase_eq] at hl' ⊢
    split at hl'
    case isTrue => cases hl'
    case isFalse hne =>
      rw [mem_insert_iff, not_or]
      exact ⟨hne, h.books.fresh id' hl'⟩
  · intro t ht
    rcases mem_append.mp ht with ht | ht
    · exact mem_insert_of_mem (h.books.tombs t ht)
    · rw [mem_singleton] at ht
      exact ht ▸ mem_insert_self
  · exact fun u hu id' hid => mem_insert_of_mem (h.books.leaving u hu id' hid)
  · have hid : id ∉ s.unlinking.flatMap (·.2) ++ s.gens.tombs.map (·.id) := by
      intro hid
      rcases mem_append.mp hid with hid | hid
      · obtain ⟨u, hu, hid⟩ := mem_flatMap.mp hid
        exact hnew (h.books.leaving u hu id hid)
      · obtain ⟨t, ht, rfl⟩ := mem_map.mp hid
        exact hnew (h.books.tombs t ht)
    simp only [WalGenState.resolved, WalGenState.recordPair, map_append, ← append_assoc]
    exact nodup_append'.mpr ⟨h.books.apart, by simp, by simpa using hid⟩
  · -- What is on disk of the id is found again in the new tombstone.
    cases h.tracked g f hf
    case poisoned h => exact .poisoned h
    case data => exact .data
    case preparing hb' _ => rw [hb] at hb'; cases hb'; exact hd.elim
    case registered e' ws id' hl' he =>
      by_cases heq : id' = id
      · subst heq
        obtain rfl : e = e' := Option.some.inj (hl.symm.trans hl')
        exact .prepareTomb (t := ⟨id', e.prepareGen, b.gen, false, false⟩)
          (mem_append_right _ mem_cons_self) he fun h => by cases h
      · refine .registered ?_ he
        rw [Map.lookup_erase_eq, if_neg heq]
        exact hl'
    case deciding b' c id' _ hb' hd' he =>
      obtain rfl : b = b' := Option.some.inj (hb.symm.trans hb')
      obtain rfl : id = id' := hd.unique hd'
      exact .decisionTomb (t := ⟨id, e.prepareGen, b.gen, false, false⟩)
        (mem_append_right _ mem_cons_self) he fun h => by cases h
    case prepareTomb ht he hd => exact .prepareTomb (mem_append_left _ ht) he hd
    case decisionTomb ht he hd => exact .decisionTomb (mem_append_left _ ht) he hd
    case leaving hu hid hm ho => exact .leaving hu hid hm ho

theorem rotate (h : s.Kept inst) : s.rotate.Kept inst where
  aged := h.aged.rotate
  distinct := h.distinct.new
  books := { h.books with }
  tracked := fun g f hf => (h.tracked g f (at_new.mp hf)).mono rfl rfl rfl (.refl _) rfl

theorem flush (h : s.Kept inst) : s.flush.Kept inst := by
  have ha := h.aged.flush
  rw [Store.flush] at ha ⊢
  split at ha
  case h_1 => exact h
  case h_2 imm imms heq =>
    have ht := WalGenState.tombs_foldl_markFlushed imm.gens s.gens
    refine ⟨ha, h.distinct, ⟨h.books.entry, h.books.fresh, ?_, h.books.leaving, ?_, h.books.preparing,
      h.books.deciding, h.books.single⟩, fun g f hf => ?_⟩
    · rw [ht]; exact h.books.tombs
    · rw [ht]; exact h.books.apart
    · exact (h.tracked g f hf).mono rfl ht rfl (.refl _) rfl

theorem compact (h : s.Kept inst) : (s.compact keep).Kept inst where
  aged := { h.aged with }
  __ := h
  books := { h.books with }
  tracked := fun g f hf => (h.tracked g f hf).mono rfl rfl rfl (.refl _) rfl

theorem sweep (h : s.Kept inst) (hu : s.unlinking = []) : s.sweep.Kept inst := by
  have ha := h.aged.sweep
  have hs := WalGenState.sweep_swept s.gens
  rw [Store.sweep] at ha ⊢
  generalize s.gens.sweep = r at ha hs ⊢
  obtain ⟨l, ids, gens⟩ := r
  simp only [hu, nil_append] at ha hs ⊢
  have hnone : ∀ {g}, ¬ s.Unlinks g := fun {g} h => by simp [Unlinks, hu] at h
  have hret : ∀ id ∈ ids ++ gens.tombs.map (·.id), id ∈ s.registry.retiring := by
    intro id hid
    obtain ⟨t, ht, rfl⟩ := mem_map.mp (hs.perm.mem_iff.mp hid)
    exact h.books.tombs t ht
  refine ⟨ha, h.distinct, ⟨h.books.entry, h.books.fresh, ?_, ?_, ?_, h.books.preparing, h.books.deciding,
    Nat.le_refl 1⟩, fun g f hf => ?_⟩
  · exact fun t ht => hret _ (mem_append_right _ (mem_map_of_mem ht))
  · intro u hu id hid
    rw [mem_singleton] at hu
    subst hu
    exact hret _ (mem_append_left _ hid)
  · have := h.books.apart
    rw [hu, flatMap_nil, nil_append] at this
    simpa using hs.perm.nodup_iff.mpr this
  · cases h.tracked g f hf
    case poisoned h => exact .poisoned h
    case data => exact .data
    case preparing hb he => exact .preparing hb he
    case registered hl he => exact .registered hl he
    case deciding hl hb hd he => exact .deciding hl hb hd he
    case leaving hm _ _ _ => rw [hu] at hm; cases hm
    case prepareTomb t ws i ht he hd =>
      rcases hs.tombs t ht with ⟨t', ht', hf⟩ | ⟨hid, hgone⟩
      · rw [← hf.id]
        refine .prepareTomb ht' (hf.prepare.trans he) fun hdel => ?_
        rcases hf.prepared hdel with hdel | hm
        · exact absurd (hd hdel) hnone
        · exact ⟨_, mem_cons_self, he ▸ hm⟩
      · rcases hgone.1 with hdel | hm
        · exact absurd (hd hdel) hnone
        · exact .leaving mem_cons_self hid (he ▸ hm) rfl
    case decisionTomb t c i ht he hd =>
      rcases hs.tombs t ht with ⟨t', ht', hf⟩ | ⟨hid, hgone⟩
      · rw [← hf.id]
        refine .decisionTomb ht' (hf.decision.trans he) fun hdel => ?_
        rcases hf.decided hdel with hdel | hm
        · exact absurd (hd hdel) hnone
        · exact ⟨_, mem_cons_self, he ▸ hm⟩
      · rcases hgone.2 with hdel | hm
        · exact absurd (hd hdel) hnone
        · exact .leaving mem_cons_self hid (he ▸ hm) rfl

theorem unlink (h : s.Kept inst) : (s.unlink i).Kept inst := by
  have ha := h.aged.unlink (i := i)
  rw [Store.unlink] at ha ⊢
  split at ha
  case h_1 g₀ gs ids heq =>
    obtain ⟨rfl, hu⟩ := eq_singleton_of_getElem? h.books.single heq
    rw [hu] at ha ⊢
    have hun : ∀ {g}, g ≠ g₀ → s.Unlinks g → g ∈ gs := by
      rintro g hne ⟨u, hmem, hg⟩
      rw [hu, mem_singleton] at hmem
      subst hmem
      exact (mem_cons.mp hg).resolve_left hne
    refine ⟨ha, h.distinct.filter, ⟨h.books.entry, h.books.fresh, h.books.tombs, ?_, ?_, h.books.preparing,
      h.books.deciding, Nat.le_refl 1⟩, fun g f hf => ?_⟩
    · intro u hmem
      obtain rfl : u = (gs, ids) := by simpa using hmem
      exact h.books.leaving (g₀ :: gs, ids) (hu ▸ mem_cons_self)
    · have := h.books.apart
      rw [hu] at this
      exact this
    · obtain ⟨hf₀, hne⟩ := at_filter.mp hf
      cases h.tracked g f hf₀
      case poisoned h => exact .poisoned h
      case data => exact .data
      case preparing hb he => exact .preparing hb he
      case registered hl he => exact .registered hl he
      case deciding hl hb hd he => exact .deciding hl hb hd he
      case prepareTomb ht he hd =>
        exact .prepareTomb ht he fun h => ⟨(gs, ids), mem_cons_self, hun hne (hd h)⟩
      case decisionTomb ht he hd =>
        exact .decisionTomb ht he fun h => ⟨(gs, ids), mem_cons_self, hun hne (hd h)⟩
      case leaving u _ _ hmem hid hg ho =>
        have hgs := hun hne ⟨u, hmem, hg⟩
        rw [hu, mem_singleton] at hmem
        subst hmem
        exact .leaving (u := (gs, ids)) mem_cons_self hid hgs ho
  case h_2 ids heq =>
    obtain ⟨rfl, hu⟩ := eq_singleton_of_getElem? h.books.single heq
    rw [hu] at ha ⊢
    have hnone : ∀ {g}, ¬ s.Unlinks g := by
      rintro g ⟨u, hmem, hg⟩
      rw [hu, mem_singleton] at hmem
      subst hmem
      cases hg
    have hreg := Registry.foldl_forget ids s.registry
    have happ := h.books.apart
    rw [hu, flatMap_singleton] at happ
    refine ⟨ha, h.distinct, ⟨?_, ?_, ?_, fun u hmem => (by cases hmem), ?_, ?_, ?_, Nat.zero_le 1⟩,
      fun g f hf => ?_⟩
    · rw [hreg.1]; exact h.books.entry
    · intro id hl hm
      rw [hreg.1] at hl
      exact h.books.fresh id hl ((hreg.2 id).mp hm).1
    · intro t ht
      refine (hreg.2 _).mpr ⟨h.books.tombs t ht, fun hid => ?_⟩
      exact (nodup_append'.mp happ).2.2 hid (mem_map_of_mem ht)
    · exact (nodup_append'.mp happ).2.1
    · intro e i p hb
      have hk := h.books.preparing e i p hb
      simp only [Registry.knows, decide_eq_false_iff_not, not_or] at hk ⊢
      rw [hreg.1, hreg.2]
      exact ⟨hk.1, fun h => hk.2 h.1⟩
    · rw [hreg.1]; exact h.books.deciding
    · cases h.tracked g f hf
      case poisoned h => exact .poisoned h
      case data => exact .data
      case preparing hb he => exact .preparing hb he
      case registered hl he => exact .registered (by rw [hreg.1]; exact hl) he
      case deciding hl hb hd he => exact .deciding (by rw [hreg.1]; exact hl) hb hd he
      case prepareTomb ht he hd => exact .prepareTomb ht he fun h => absurd (hd h) hnone
      case decisionTomb ht he hd => exact .decisionTomb ht he fun h => absurd (hd h) hnone
      case leaving u _ _ hmem hid hg ho => exact absurd ⟨u, hmem, hg⟩ hnone
  case h_3 => exact h

theorem reopen [LinearOrder K] {files : List (File I K V)} {tables : List (Item I K V)} {floor maxBytes : Nat}
    (hn : (files.map File.gen).Nodup) (hd : Distinct files) (hds : decisions files = [])
    (hinst : ∀ p ∈ prepares files, inst p.id = p.inst)
    (h : Store.reopen size files tables floor maxBytes = .ok s) : s.Kept inst := by
  have hr := reopened h
  have hdf : ∀ id, decisionFor (decisions files) id = none := fun id => by rw [hds]; rfl
  have hlook : ∀ p ∈ prepares files, s.registry.byId.lookup p.id = some (p.entry size) := fun p hp => by
    rw [hr.registered p hp, hdf]
    rfl
  have htombs : s.gens.tombs = [] := by
    rw [hr.tombs]
    simp [hdf]
  refine ⟨aged_reopen hn h, ?_, ⟨?_, ?_, ?_, ?_, ?_, ?_, ?_, ?_⟩, fun g f hf => ?_⟩
  · rw [hr.files]; exact hd.new
  · intro id e hl
    obtain ⟨p, hp, rfl⟩ := hr.known id e hl
    rw [hlook p hp] at hl
    exact Option.some.inj hl ▸ rfl
  · rw [hr.retiring]; exact fun _ _ => not_mem_nil
  · rw [htombs]; exact nofun
  · rw [hr.unlinking]; exact nofun
  · rw [hr.unlinking, htombs]; exact nodup_nil
  · rw [hr.busy]; exact nofun
  · rw [hr.busy]; exact nofun
  · rw [hr.unlinking]; exact Nat.zero_le 1
  · rw [hr.files, at_new] at hf
    cases f
    case data => exact .data
    case prepare id i ws =>
      have hp : ⟨id, i, ws, g⟩ ∈ prepares files := mem_prepares.mpr hf
      exact .of_registered (hlook _ hp) rfl (hinst _ hp)
    case decision id i c =>
      have hd : ⟨id, i, c, g⟩ ∈ decisions files := mem_decisions.mpr hf
      rw [hds] at hd
      cases hd

end Kept

variable [LinearOrder K] [ToString I] [ToString K] {size : List (WriteEntry K V) → Nat}

theorem checkPrepare_eq_ok {id : I} (h : s.checkPrepare size id ws = .ok ()) :
    s.poisoned = false ∧ s.registry.knows id = false := by
  simp only [checkPrepare, except_guard_eq_ok, reduceCtorEq, imp_false, Bool.not_eq_true] at h
  exact ⟨h.1, h.2.1⟩

theorem Kept.guarded (h : s.Kept inst) : s.Guarded size where
  refused := fun hb id ws hid => by
    rcases hc : s.checkPrepare size id ws with e | ⟨⟩
    · exact ⟨e, rfl⟩
    · obtain ⟨hp, hk⟩ := checkPrepare_eq_ok hc
      rw [h.knows hb hp hid] at hk
      cases hk
  reopens := fun sv => ⟨_, if_pos (h.distinct.survivors sv).once⟩
  matched := fun p hp d hd hid =>
    h.distinct.same _ _ _ _ _ _ _ (mem_prepares.mp hp) (mem_decisions.mp hd) rfl (by rw [hid]; rfl)
  retried := fun hb hp p hp' d hd hid _ => by
    have hk : s.registry.knows p.id := h.knows hb hp ⟨_, _, _, mem_prepares.mp hp', rfl⟩
    rcases of_decide_eq_true hk with hl | hr
    · -- A registered id has no decision on disk unless one is being written.
      rw [hid] at hl
      rcases (h.registered hp hl (mem_decisions.mp hd) rfl).2 with ⟨_, heq, -⟩ | ⟨_, _, -, hb', -⟩
      · cases heq
      · rw [hb] at hb'
        cases hb'
    · exact if_pos (decide_eq_true hr)

end Store

namespace Run

variable [DecidableEq I] [LinearOrder K] [ToString I] [ToString K] {size : List (WriteEntry K V) → Nat}
  {r : Run I K V}

omit [LinearOrder K] [ToString I] [ToString K] in
theorem kept_start : (start maxBytes : Run I K V).store.Kept (start maxBytes : Run I K V).inst where
  aged := .start
  distinct := ⟨by simp [start, Store.start, Store.prepares], fun _ _ _ _ _ _ _ h => by
    simp [start, Store.start, At] at h⟩
  books := ⟨nofun, nofun, nofun,
    nofun, nodup_nil, nofun, nofun,
    Nat.zero_le 1⟩
  tracked := fun _ _ h => by simp [start, Store.start, At] at h

omit [LinearOrder K] [ToString I] [ToString K] in
theorem recoveredInst_eq (hn : ((Store.prepares files).map Store.RecoveredPrepare.id).Nodup)
    (hp : p ∈ Store.prepares files) :
    r.recoveredInst files p.id = p.inst := by
  rw [recoveredInst]
  split
  case h_1 q hq =>
    have hid : q.id = p.id := by simpa using find?_some hq
    rw [inj_on_of_nodup_map hn (mem_of_find?_eq_some hq) hp hid]
  case h_2 hq =>
    have := find?_eq_none.mp hq p hp
    simp at this

omit [DecidableEq I] [LinearOrder K] [ToString I] [ToString K] in
theorem idle_iff : r.idle ↔ r.store.busy = none ∧ r.store.poisoned = false := by
  simp [idle]

theorem kept_exec {e : Event I K V} (h : r.store.Kept r.inst) (ho : r.store.Orderly e) :
    (r.exec size e).store.Kept (r.exec size e).inst := by
  cases e <;> rw [exec]
  case commit ws start =>
    split
    · exact h.commit
    · exact h
  case prepareAppend id ws =>
    split
    case isTrue hi =>
      split
      case h_1 hc =>
        obtain ⟨hp, hk⟩ := Store.checkPrepare_eq_ok hc
        exact h.prepareAppend (idle_iff.mp hi).1 hp hk
      case h_2 => exact h
    case isFalse => exact h
  case prepareSync fails =>
    split
    case h_1 e inst hb =>
      rw [ho e inst hb]
      simp only [Bool.not_true, Bool.false_eq_true, if_false]
      split
      · exact h.poison
      · refine h.synced ?_ ?_ <;> rw [hb]
        · exact .prepareSync
        · exact .prepareSync
    case h_2 => exact h
  case prepareDone =>
    split
    case h_1 e inst hb => exact h.prepareDone hb
    case h_2 => exact h
  case commitDecide id start =>
    split
    case isTrue hi =>
      split
      case h_1 e hl => exact h.commitDecide (idle_iff.mp hi).1 (idle_iff.mp hi).2 hl
      case h_2 => exact h
    case isFalse => exact h
  case commitFails id start =>
    split
    case isTrue hi =>
      split
      case h_1 e hl =>
        exact h.decisionFails (idle_iff.mp hi).1 (idle_iff.mp hi).2 (Option.isSome_of_mem hl)
      case h_2 => exact h
    case isFalse => exact h
  case commitDone =>
    split
    case h_1 id gen start hb => exact h.decided hb rfl
    case h_2 => exact h
  case abortAppend id =>
    split
    case isTrue hi =>
      split
      case h_1 e hl =>
        exact h.decision (b := .aborting id r.store.gen false) (idle_iff.mp hi).1 (idle_iff.mp hi).2
          (Option.isSome_of_mem hl) rfl rfl
      case h_2 => exact h
    case isFalse => exact h
  case abortSync fails =>
    split
    case h_1 id gen hb =>
      rw [ho id gen hb]
      simp only [Bool.not_true, Bool.false_eq_true, if_false]
      split
      · exact h.poison
      · refine h.synced ?_ ?_ <;> rw [hb]
        · exact .abortSync
        · exact .abortSync
    case h_2 => exact h
  case abortDone =>
    split
    case h_1 id gen hb => exact h.decided hb rfl
    case h_2 => exact h
  case rotate =>
    split
    · exact h
    · exact h.rotate
  case flush =>
    split
    · exact h
    · exact h.flush
  case sweep => exact h.sweep ho
  case unlink i => exact h.unlink
  case compact keep => exact h.compact
  case crash survives =>
    have hd := h.distinct.survivors survives
    split
    case h_1 s hs =>
      refine .reopen (by rw [Store.gens_survivors]; exact h.aged.nodup) hd ho (fun p hp => ?_) hs
      exact recoveredInst_eq hd.once hp
    case h_2 => exact h

-- In a run whose syncs find their handle open, whose sweeps do not overlap and whose crashes leave
-- no decision, an id is guarded as long as anything of it is on disk.
theorem ids_guarded {maxBytes : Nat}
    (h : Reachable (start maxBytes) (fun r r' => ∃ e, r.store.Orderly e ∧ r' = r.exec size e) r) :
    r.store.Guarded size := by
  have hk : r.store.Kept r.inst := h.invariant kept_start fun r r' hst hk => by
    obtain ⟨e, ho, rfl⟩ := hst
    exact kept_exec hk ho
  exact hk.guarded

section Examples

def bytes (ws : List (WriteEntry Nat Nat)) : Nat := ws.length

def runOf (es : List (Event Nat Nat Nat)) : Run Nat Nat Nat :=
  es.foldl (exec bytes) (start 10)

def put (key value : Nat) : List (WriteEntry Nat Nat) := [⟨0, .point key value 0 .put⟩]

def prepare (id : Nat) : List (Event Nat Nat Nat) :=
  [.prepareAppend id (put 1 5), .prepareSync false, .prepareDone]

def committedAfterCrash : Run Nat Nat Nat :=
  runOf (prepare 7 ++ [.crash fun _ _ => false, .commitDecide 7 1, .commitDone])

theorem ids_guarded_committedAfterCrash :
    Reachable (start 10) (fun r r' => ∃ e, r.store.Orderly e ∧ r' = r.exec bytes e) committedAfterCrash ∧
      committedAfterCrash.store.Holds 7 ∧ committedAfterCrash.store.Guarded bytes := by
  have hr : Reachable (start 10) (fun r r' => ∃ e, r.store.Orderly e ∧ r' = r.exec bytes e)
      committedAfterCrash := by
    refine (((((Reachable.start.next ⟨.prepareAppend 7 (put 1 5), trivial, rfl⟩).next
      ⟨.prepareSync false, ?_, rfl⟩).next ⟨.prepareDone, trivial, rfl⟩).next
      ⟨.crash fun _ _ => false, ?_, rfl⟩).next ⟨.commitDecide 7 1, trivial, rfl⟩).next
      ⟨.commitDone, trivial, rfl⟩
    · rintro e i ⟨⟩
      rfl
    · rfl
  exact ⟨hr, ⟨0, .prepare 7 0 (put 1 5), 0, ⟨_, mem_cons_self, rfl, true, by decide⟩, rfl⟩,
    ids_guarded hr⟩

-- A prepare whose handle a rotation has closed leaves its frame, and the id is prepared again.
def preparedTwice : Run Nat Nat Nat :=
  runOf ([.commit (put 3 5) 1, .prepareAppend 7 (put 1 5), .rotate, .prepareSync false] ++ prepare 7)

def resolvedBeforeCrash : Run Nat Nat Nat :=
  runOf (prepare 7 ++ [.commitDecide 7 1, .commitDone, .crash fun _ _ => true])

-- Two prepares with one id are on disk and no reopen succeeds; and after a reopen with a resolved
-- pair on disk, its id is free and a retry of the commit is refused.
theorem id_reused_on_disk :
    (∃ e, Store.reopen bytes preparedTwice.store.files [] 0 10 = .error e) ∧
    resolvedBeforeCrash.store.Holds 7 ∧
    resolvedBeforeCrash.store.checkPrepare bytes 7 (put 1 5) = .ok () ∧
    resolvedBeforeCrash.store.commitRetry 7 = .error .notFound :=
  ⟨⟨_, rfl⟩, ⟨0, .decision 7 0 (some (1, 1)), 0, ⟨_, mem_cons_self, rfl, true, by decide⟩, rfl⟩,
    by decide, by decide⟩

end Examples

end Run

end OndaDb.Prepared

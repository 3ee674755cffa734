import OndaDb.Prepared.Theorems.Crash

-- The invariant of a run: every id has a fate that the log, the memtables and the registry agree on.
namespace OndaDb.Prepared

open List

variable {I K V : Type}

def Fate.claims : Fate K V → List (WriteEntry K V)
  | absent => []
  | writing ws _ => ws
  | pending ws _ => ws
  | decided _ _ _ _ => []

namespace Store

variable [DecidableEq I] {s s' : Store I K V} {fate fate' : I → Fate K V} {used attempted : List I}
  {dropped : List (Item I K V)} {ticks : Nat} {id₀ : I} {f : Fate K V}

def Call (s : Store I K V) (fate : I → Fate K V) : Busy I K V → Prop
  | .preparing e _ _ => fate e.id = .writing e.writes e.prepareGen
  | .committed id G start => ∃ e P, s.registry.byId.lookup id = some e ∧ fate id = .decided e.writes P (some start) G
  | .aborting id _ _ => ∃ ws P, fate id = .pending ws P

structure Traced (s : Store I K V) (fate : I → Fate K V) (used attempted : List I) : Prop where
  aged : s.Aged
  once : ((prepares s.files).map RecoveredPrepare.id).Nodup
  fated : ∀ id, s.Fated id (fate id)
  spent : ∀ id, fate id ≠ .absent → id ∈ used
  tried : ∀ g id i c, At s.files g (.decision id i c) → id ∈ attempted ∧ id ∈ used
  one : ∀ id g i c i' c', At s.files g (.decision id i c) → At s.files g (.decision id i' c') → c = c'
  single : s.unlinking.length ≤ 1
  calm : s.poisoned → s.busy = none
  call : ∀ b, s.busy = some b → s.Call fate b

-- Where the records of a commit are: in the memtable of the decision, and in a table once that is
-- flushed.
structure Applied (s : Store I K V) (dropped : List (Item I K V)) (id : I) (ws : List (WriteEntry K V))
    (start G : Nat) : Prop where
  above : s.floor ≤ G → ∀ i ∈ stampItems (.prepared id) start ws, s.In G i
  below : G < s.floor → ∀ i ∈ stampItems (.prepared id) start ws, i ∈ s.tables ∨ i ∈ dropped

structure Stored (s : Store I K V) (fate : I → Fate K V) (dropped : List (Item I K V)) (ticks : Nat) :
    Prop where
  layers : s.Layers
  placed : s.Placed dropped
  applied : ∀ id ws P start G, fate id = .decided ws P (some start) G → s.Applied dropped id ws start G
  owned : ∀ i id, s.Somewhere dropped i → i.source = .prepared id →
    ∃ ws P start G, fate id = .decided ws P (some start) G ∧ i ∈ stampItems (.prepared id) start ws
  ticks : ∀ i n, s.Somewhere dropped i → i.source = .commit n → n < ticks

structure Claimed [LinearOrder K] (s : Store I K V) (fate : I → Fate K V) : Prop where
  pins : ∃ l : List (I × Nat), s.gens.live.Perm (l.map Prod.snd) ∧
    ∀ id e, s.registry.byId.lookup id = some e → (id, e.prepareGen) ∈ l
  reserved : ∀ id ws P, fate id = .pending ws P → ∀ w ∈ ws, s.registry.ownerOf w.cf w.key = some id
  disjoint : ∀ id id', id ≠ id' → ∀ w ∈ (fate id).claims, ∀ w' ∈ (fate id').claims,
    (w.cf, w.key) ≠ (w'.cf, w'.key)

theorem Traced.leaves (h : s.Traced fate used attempted) (ha : s'.Aged)
    (ho : ((prepares s'.files).map RecoveredPrepare.id).Nodup) (hl : ∀ id, Leaves id s s')
    (hu : s'.unlinking = s.unlinking) (hb : s'.busy = s.busy) (hp : s'.poisoned = s.poisoned) :
    s'.Traced fate used attempted where
  aged := ha
  once := ho
  fated := fun id => (hl id).fated (h.fated id)
  __ := h
  tried := fun g id i c hf => h.tried g id i c (((hl id).at_ g _ i rfl).mp hf)
  one := fun id g i c i' c' hf hf' =>
    h.one id g i c i' c' (((hl id).at_ g _ i rfl).mp hf) (((hl id).at_ g _ i' rfl).mp hf')
  single := hu ▸ h.single
  calm := fun hp' => hb.trans (h.calm (hp ▸ hp'))
  call := fun b hb' => by
    have hc := h.call b (hb ▸ hb')
    cases b
    case preparing => exact hc
    case committed =>
      obtain ⟨e, P, hl', hf⟩ := hc
      exact ⟨e, P, (hl _).lookup.trans hl', hf⟩
    case aborting => exact hc

theorem Traced.step (h : s.Traced fate used attempted) (ha : s'.Aged)
    (ho : ((prepares s'.files).map RecoveredPrepare.id).Nodup) (hl : ∀ id, id ≠ id₀ → Leaves id s s')
    (hf : s'.Fated id₀ f) (hused : id₀ ∈ used') (hsub : used ⊆ used') (hatt : attempted ⊆ attempted')
    (hd : ∀ g i c, At s'.files g (.decision id₀ i c) → id₀ ∈ attempted')
    (hone : ∀ g i c i' c', At s'.files g (.decision id₀ i c) → At s'.files g (.decision id₀ i' c') → c = c')
    (hu : s'.unlinking = s.unlinking) (hcalm : s'.poisoned → s'.busy = none)
    (hcall : ∀ b, s'.busy = some b → s'.Call (Function.update fate id₀ f) b) :
    s'.Traced (Function.update fate id₀ f) used' attempted' where
  aged := ha
  once := ho
  fated := fun id => by
    by_cases hid : id = id₀
    · subst hid
      rw [Function.update_self]
      exact hf
    · rw [Function.update_of_ne hid]
      exact (hl id hid).fated (h.fated id)
  spent := fun id hne => by
    by_cases hid : id = id₀
    · exact hid ▸ hused
    · rw [Function.update_of_ne hid] at hne
      exact hsub (h.spent id hne)
  tried := fun g id i c hat => by
    by_cases hid : id = id₀
    · subst hid
      exact ⟨hd g i c hat, hused⟩
    · have := h.tried g id i c (((hl id hid).at_ g _ i rfl).mp hat)
      exact ⟨hatt this.1, hsub this.2⟩
  one := fun id g i c i' c' hat hat' => by
    by_cases hid : id = id₀
    · subst hid
      exact hone g i c i' c' hat hat'
    · exact h.one id g i c i' c' (((hl id hid).at_ g _ i rfl).mp hat) (((hl id hid).at_ g _ i' rfl).mp hat')
  single := hu ▸ h.single
  calm := hcalm
  call := hcall

theorem Traced.touch (h : s.Traced fate used attempted) (ha : s'.Aged)
    (ho : ((prepares s'.files).map RecoveredPrepare.id).Nodup) (hl : ∀ id, id ≠ id₀ → Leaves id s s')
    (hf : s'.Fated id₀ (fate id₀)) (hused : id₀ ∈ used) (hatt : attempted ⊆ attempted')
    (hd : ∀ g i c, At s'.files g (.decision id₀ i c) → id₀ ∈ attempted')
    (hone : ∀ g i c i' c', At s'.files g (.decision id₀ i c) → At s'.files g (.decision id₀ i' c') → c = c')
    (hu : s'.unlinking = s.unlinking) (hcalm : s'.poisoned → s'.busy = none)
    (hcall : ∀ b, s'.busy = some b → s'.Call fate b) : s'.Traced fate used attempted' := by
  have hst := h.step ha ho hl hf hused (List.Subset.refl _) hatt hd hone hu hcalm fun b hb => by
    rw [Function.update_eq_self]
    exact hcall b hb
  rwa [Function.update_eq_self] at hst

omit [DecidableEq I] in
theorem Stored.congr (h : s.Stored fate dropped ticks) (hl : s'.Layers) (hm : s'.mems = s.mems)
    (ht : s'.tables = s.tables) (hf : s'.floor = s.floor)
    (hd : ∀ g items, At s'.files g (.data items) → At s.files g (.data items))
    (hfate : ∀ id ws P start G, fate' id = .decided ws P (some start) G ↔ fate id = .decided ws P (some start) G) :
    s'.Stored fate' dropped ticks where
  layers := hl
  placed := h.placed.congr hm ht hf hd
  applied := fun id ws P start G hdec => by
    have ha := h.applied id ws P start G ((hfate ..).mp hdec)
    refine ⟨fun hG i hi => ?_, fun hG i hi => ?_⟩
    · simp only [In, hm]
      exact ha.above (hf ▸ hG) i hi
    · rw [ht]
      exact ha.below (hf ▸ hG) i hi
  owned := fun i id hs hsrc => by
    simp only [Somewhere, InMem, hm, ht] at hs
    obtain ⟨ws, P, start, G, hdec, hi⟩ := h.owned i id hs hsrc
    exact ⟨ws, P, start, G, (hfate ..).mpr hdec, hi⟩
  ticks := fun i n hs => by
    simp only [Somewhere, InMem, hm, ht] at hs
    exact h.ticks i n hs

omit [DecidableEq I] in
theorem source_of_mem_stampItems {start : Nat} (h : i ∈ stampItems source start ws) : i.source = source := by
  obtain ⟨p, -, rfl⟩ := mem_map.mp h
  rfl

omit [DecidableEq I] in
theorem somewhere_add :
    (s.add items).Somewhere dropped i ↔ i ∈ items ∨ s.Somewhere dropped i := by
  rw [Somewhere, inMem_add, or_assoc]
  rfl

omit [DecidableEq I] in
theorem Stored.commit {start : Nat} (h : s.Stored fate dropped ticks) :
    (s.commit (stampItems (.commit ticks) start ws)).Stored fate dropped (ticks + 1) where
  layers := ⟨h.layers.order_of_gens (by simp [mems, Store.commit, append]), h.layers.active, h.layers.floor,
    h.layers.flushed, h.layers.unlinks⟩
  placed := h.placed.commit h.layers fun i hi hs =>
    Nat.lt_irrefl _ (h.ticks i ticks hs (source_of_mem_stampItems hi))
  applied := fun id ws P start G hdec => by
    have ha := h.applied id ws P start G hdec
    exact ⟨fun hG i hi => (ha.above hG i hi).add, ha.below⟩
  owned := fun i id hs hsrc => by
    rcases somewhere_add.mp hs with hi | hs
    · rw [source_of_mem_stampItems hi] at hsrc
      cases hsrc
    · exact h.owned i id hs hsrc
  ticks := fun i n hs hsrc => by
    rcases somewhere_add.mp hs with hi | hs
    · rw [source_of_mem_stampItems hi] at hsrc
      cases hsrc
      exact Nat.lt_succ_self _
    · exact (h.ticks i n hs hsrc).trans (Nat.lt_succ_self _)

theorem Stored.commitDecide {inst start P : Nat} (h : s.Stored fate dropped ticks)
    (hf : ∀ ws P start G, fate e.id ≠ .decided ws P (some start) G) :
    (s.commitDecide e inst start).Stored
      (Function.update fate e.id (.decided e.writes P (some start) s.gen)) dropped ticks where
  layers := ⟨h.layers.order_of_gens (by simp [mems, Store.commitDecide, append, sync]), h.layers.active,
    h.layers.floor, h.layers.flushed, h.layers.unlinks⟩
  placed := by
    have hnew : ∀ i ∈ stampItems (.prepared e.id) start e.writes, ¬ s.Somewhere dropped i := fun i hi hs => by
      obtain ⟨ws, P, start, G, hdec, -⟩ := h.owned i e.id hs (source_of_mem_stampItems hi)
      exact hf ws P start G hdec
    refine (h.placed.add hnew).congr rfl rfl rfl fun g items hat => ?_
    exact (at_append.mp (at_sync.mp hat)).resolve_right fun h => by cases h.2.1
  applied := fun id ws P' start' G hdec => by
    by_cases hid : id = e.id
    · subst hid
      rw [Function.update_self] at hdec
      cases hdec
      exact ⟨fun _ i hi => in_add_self h.layers.active hi, fun hG => absurd hG (Nat.not_lt.mpr h.layers.floor)⟩
    · rw [Function.update_of_ne hid] at hdec
      have ha := h.applied id ws P' start' G hdec
      exact ⟨fun hG i hi => (ha.above hG i hi).add, ha.below⟩
  owned := fun i id hs hsrc => by
    rcases somewhere_add.mp hs with hi | hs
    · rw [source_of_mem_stampItems hi] at hsrc
      cases hsrc
      exact ⟨_, _, _, _, Function.update_self .., hi⟩
    · obtain ⟨ws, P, start, G, hdec, hi⟩ := h.owned i id hs hsrc
      have hid : id ≠ e.id := fun hid => hf ws P start G (hid ▸ hdec)
      exact ⟨ws, P, start, G, (Function.update_of_ne hid ..).trans hdec, hi⟩
  ticks := fun i n hs hsrc => by
    rcases somewhere_add.mp hs with hi | hs
    · rw [source_of_mem_stampItems hi] at hsrc
      cases hsrc
    · exact h.ticks i n hs hsrc

omit [DecidableEq I] in
theorem Stored.rotate (h : s.Stored fate dropped ticks) (ha : s.Aged) : s.rotate.Stored fate dropped ticks where
  layers := h.layers.rotate ha
  placed := h.placed.rotate
  applied := fun id ws P start G hdec =>
    ⟨fun hG i hi => ((h.applied id ws P start G hdec).above hG i hi).rotate,
      (h.applied id ws P start G hdec).below⟩
  owned := fun i id hs => h.owned i id (hs.imp_left inMem_rotate.mp)
  ticks := fun i n hs => h.ticks i n (hs.imp_left inMem_rotate.mp)

omit [DecidableEq I] in
theorem Stored.flush (h : s.Stored fate dropped ticks) : s.flush.Stored fate dropped ticks := by
  rcases hs : s.imms with _ | ⟨imm, imms⟩
  · rw [Store.flush, hs]; exact h
  have hsome : ∀ i, s.flush.Somewhere dropped i → s.Somewhere dropped i := by
    rintro i (hi | hi | hi)
    · exact .inl ((inMem_flush hs).mpr (.inr hi))
    · rw [tables_flush hs, mem_append] at hi
      exact hi.elim (fun hi => .inl ((inMem_flush hs).mpr (.inl hi))) fun hi => .inr (.inl hi)
    · exact .inr (.inr hi)
  have hle : s.floor ≤ s.flush.floor := floor_flush hs ▸ Nat.le_max_left _ _
  refine ⟨h.layers.flush, h.placed.flush h.layers, fun id ws P start G hdec => ?_,
    fun i id hi => h.owned i id (hsome i hi), fun i n hi => h.ticks i n (hsome i hi)⟩
  have ha := h.applied id ws P start G hdec
  refine ⟨fun hG i hi => (ha.above (hle.trans hG) i hi).flush h.layers hs hG, fun hG i hi => ?_⟩
  rcases Nat.lt_or_ge G s.floor with hlt | hge
  · refine (ha.below hlt i hi).imp_left fun ht => ?_
    rw [tables_flush hs]
    exact mem_append_right _ ht
  · exact .inl ((ha.above hge i hi).flushed hs hge hG)

omit [DecidableEq I] in
theorem Stored.compact (h : s.Stored fate dropped ticks) :
    (s.compact keep).Stored fate (s.tables.filter (fun i => !keep i) ++ dropped) ticks := by
  have hsome : ∀ i, (s.compact keep).Somewhere (s.tables.filter (fun i => !keep i) ++ dropped) i →
      s.Somewhere dropped i := by
    rintro i (hi | hi | hi)
    · exact .inl hi
    · exact .inr (.inl (mem_filter.mp hi).1)
    · rcases mem_append.mp hi with hi | hi
      · exact .inr (.inl (mem_filter.mp hi).1)
      · exact .inr (.inr hi)
  refine ⟨{ h.layers with },
    h.placed.compact, fun id ws P start G hdec => ⟨(h.applied id ws P start G hdec).above, fun hG i hi => ?_⟩,
    fun i id hi => h.owned i id (hsome i hi), fun i n hi => h.ticks i n (hsome i hi)⟩
  rcases (h.applied id ws P start G hdec).below hG i hi with ht | hd
  · cases hk : keep i
    case true => exact .inl (mem_filter.mpr ⟨ht, hk⟩)
    case false => exact .inr (mem_append_left _ (mem_filter.mpr ⟨ht, by rw [hk]; rfl⟩))
  · exact .inr (mem_append_right _ hd)

theorem update_claims (hc : f.claims ⊆ (fate id₀).claims) (id : I) :
    (Function.update fate id₀ f id).claims ⊆ (fate id).claims := by
  by_cases hid : id = id₀
  · subst hid
    rw [Function.update_self]
    exact hc
  · rw [Function.update_of_ne hid]
    exact List.Subset.refl _

section Claims

variable [LinearOrder K]

theorem Claimed.congr (h : s.Claimed fate) (hr : s'.registry = s.registry) (hl : s'.gens.live = s.gens.live)
    (hp : ∀ id ws P, fate' id = .pending ws P → fate id = .pending ws P)
    (hc : ∀ id, (fate' id).claims ⊆ (fate id).claims) : s'.Claimed fate' where
  pins := by rw [hr, hl]; exact h.pins
  reserved := fun id ws P hf => by rw [hr]; exact h.reserved id ws P (hp id ws P hf)
  disjoint := fun id id' hne w hw w' hw' => h.disjoint id id' hne w (hc id hw) w' (hc id' hw')

theorem Claimed.prepareAppend (h : s.Claimed fate) (hr : s'.registry = s.registry)
    (hl : s'.gens.live = s.gens.live) (hw : ∀ id ws P, fate id ≠ .writing ws P)
    (ho : ∀ w ∈ ws, s.registry.ownerOf w.cf w.key = none) :
    s'.Claimed (Function.update fate id₀ (.writing ws P)) := by
  have hkey : ∀ w ∈ ws, ∀ id, ∀ w' ∈ (fate id).claims, (w.cf, w.key) ≠ (w'.cf, w'.key) := by
    intro w hmem id w' hw' heq
    cases hf : fate id
    case absent => rw [hf] at hw'; cases hw'
    case decided => rw [hf] at hw'; cases hw'
    case writing ws' P' => exact hw id ws' P' hf
    case pending ws' P' =>
      rw [hf] at hw'
      have hown := h.reserved id ws' P' hf w' hw'
      have hnone := ho w hmem
      rw [Registry.ownerOf] at hown hnone
      rw [heq, hown] at hnone
      cases hnone
  refine ⟨by rw [hr, hl]; exact h.pins, fun id ws' P' hf => ?_, fun id id' hne w hw w' hw' => ?_⟩
  · by_cases hid : id = id₀
    · subst hid
      rw [Function.update_self] at hf
      cases hf
    · rw [Function.update_of_ne hid] at hf
      rw [hr]
      exact h.reserved id ws' P' hf
  · by_cases hid : id = id₀
    · subst hid
      rw [Function.update_self] at hw
      rw [Function.update_of_ne hne.symm] at hw'
      exact hkey w hw id' w' hw'
    · rw [Function.update_of_ne hid] at hw
      by_cases hid' : id' = id₀
      · subst hid'
        rw [Function.update_self] at hw'
        exact (hkey w' hw' id w hw).symm
      · rw [Function.update_of_ne hid'] at hw'
        exact h.disjoint id id' hne w hw w' hw'

theorem Claimed.prepareDone (h : s.Claimed fate) (hf : fate e.id = .writing e.writes P) :
    (s.prepareDone e).Claimed (Function.update fate e.id (.pending e.writes P)) where
  pins := by
    obtain ⟨l, hp, hl⟩ := h.pins
    refine ⟨(e.id, e.prepareGen) :: l, hp.cons _, fun id e' hl' => ?_⟩
    simp only [Store.prepareDone, Registry.register, Map.lookup_insert_eq] at hl'
    split at hl'
    case isTrue hid => cases hl'; exact hid ▸ mem_cons_self
    case isFalse hid => exact mem_cons_of_mem _ (hl id e' hl')
  reserved := fun id ws P' hf' w hw => by
    have hlook := Registry.lookup_reserves e.id e.writes s.registry.byKey (w.cf, w.key)
    refine hlook.trans ?_
    by_cases hid : id = e.id
    · subst hid
      rw [Function.update_self] at hf'
      cases hf'
      exact if_pos ⟨w, hw, rfl⟩
    · rw [Function.update_of_ne hid] at hf'
      rw [if_neg]
      · exact h.reserved id ws P' hf' w hw
      · rintro ⟨w', hw', heq⟩
        refine h.disjoint e.id id (Ne.symm hid) w' ?_ w ?_ heq
        · rw [hf]; exact hw'
        · rw [hf']; exact hw
  disjoint := by
    have hc : ∀ id, (Function.update fate e.id (.pending e.writes P) id).claims ⊆ (fate id).claims :=
      update_claims (by rw [hf]; exact List.Subset.refl _)
    exact fun id id' hne w hw w' hw' => h.disjoint id id' hne w (hc id hw) w' (hc id' hw')

theorem Claimed.decided {id : I} (h : s.Claimed fate) (hl : s.registry.byId.lookup id = some e)
    (hp : ∀ ws P, fate' id ≠ .pending ws P) (hf : ∀ id', id' ≠ id → fate' id' = fate id')
    (hc : (fate' id).claims ⊆ (fate id).claims) :
    (s.decided id G).Claimed fate' := by
  rw [decided_of_lookup hl]
  have hc' : ∀ id', (fate' id').claims ⊆ (fate id').claims := fun id' => by
    by_cases hid : id' = id
    · exact hid ▸ hc
    · rw [hf id' hid]
      exact List.Subset.refl _
  refine ⟨?_, fun id' ws P hf' w hw => ?_, fun id₁ id₂ hne w hw w' hw' =>
    h.disjoint id₁ id₂ hne w (hc' id₁ hw) w' (hc' id₂ hw')⟩
  · obtain ⟨l, hperm, hmem⟩ := h.pins
    have hin := hmem id e hl
    refine ⟨l.erase (id, e.prepareGen), ?_, fun id' e' hl' => ?_⟩
    · have hl₁ : (l.map Prod.snd).Perm (e.prepareGen :: (l.erase (id, e.prepareGen)).map Prod.snd) :=
        (perm_cons_erase hin).map Prod.snd
      have := (hperm.trans hl₁).erase e.prepareGen
      rwa [erase_cons_head] at this
    · simp only [Map.lookup_erase_eq] at hl'
      split at hl'
      case isTrue => cases hl'
      case isFalse hid =>
        exact (mem_erase_of_ne fun heq => hid (Prod.mk.inj heq).1).mpr (hmem id' e' hl')
  · have hid : id' ≠ id := fun hid => hp ws P (hid ▸ hf')
    have hown := h.reserved id' ws P (hf id' hid ▸ hf') w hw
    refine (Registry.lookup_unreserves id e.writes s.registry.byKey (w.cf, w.key)).trans ?_
    rw [Registry.ownerOf] at hown
    rw [hown, if_neg]
    exact fun h => hid (Option.some.inj h.2)

end Claims

section Reopen

variable {sv : Nat → Frame I K V → Bool} {size : List (WriteEntry K V) → Nat} {maxBytes : Nat}
  {id : I} {ws : List (WriteEntry K V)} {P start G : Nat} {c : Option Nat}

-- A fate that is decided after an open was so before, or a decision has come through that its call
-- did not live to see.
theorem reopened_eq_decided {files : List (File I K V)} (h : f.reopened files id = .decided ws P c G) :
    f = .decided ws P c G ∨ f = .pending ws P ∧
      ∃ d, decisionFor (decisions files) id = some d ∧ d.commit.map Prod.fst = c ∧ d.gen = G := by
  cases f
  case absent => cases h
  case writing =>
    rw [Fate.reopened] at h
    split at h <;> cases h
  case pending =>
    rw [Fate.reopened] at h
    split at h
    case h_1 => cases h
    case h_2 d hd =>
      cases h
      exact .inr ⟨rfl, d, hd, rfl, rfl⟩
  case decided => exact .inl h

theorem mem_items {floor : Nat} {p : RecoveredPrepare I K V} {i : Item I K V} :
    i ∈ p.items ds floor ↔ ∃ d start n, decisionFor ds p.id = some d ∧ d.commit = some (start, n) ∧
      floor ≤ d.gen ∧ i ∈ stampItems (.prepared p.id) start p.writes := by
  rw [RecoveredPrepare.items]
  constructor
  · intro hi
    split at hi
    case h_1 start n gen hd =>
      split at hi
      case isTrue hg => exact ⟨_, start, n, hd, rfl, hg, hi⟩
      case isFalse => cases hi
    case h_2 => cases hi
  · rintro ⟨⟨id, inst, commit, gen⟩, start, n, hd, rfl, hg, hi⟩
    rw [hd]
    simp only [if_pos hg]
    exact hi

theorem Traced.recovered {i : Item I K V} (h : s.Traced fate used attempted)
    (hp : p ∈ prepares (survivors sv s.files)) (hi : i ∈ p.items (decisions (survivors sv s.files)) s.floor) :
    ∃ P start G, (fate p.id).reopened (survivors sv s.files) p.id = .decided p.writes P (some start) G ∧
      s.floor ≤ G ∧ i ∈ stampItems (.prepared p.id) start p.writes := by
  obtain ⟨d, start, n, hd, hc, hg, hi⟩ := mem_items.mp hi
  obtain ⟨hdm, hid, -⟩ := decisionFor_eq_some hd
  have hat := at_of_survivors (mem_prepares.mp hp)
  have hdat := mem_decisions.mp hdm
  rw [hid] at hdat
  have hfate := h.fated p.id
  cases hf : fate p.id
  case absent => rw [hf] at hfate; exact absurd hat (hfate.1 _ _ _)
  case writing => rw [hf] at hfate; exact absurd (at_of_survivors hdat) (hfate.undecided _ _ _)
  case pending ws P =>
    rw [hf] at hfate
    obtain ⟨-, rfl⟩ := hfate.only _ _ _ hat
    refine ⟨P, start, d.gen, ?_, hg, hi⟩
    simp only [Fate.reopened, hd, hc, Option.map_some]
  case decided ws P c G =>
    rw [hf] at hfate
    obtain ⟨-, rfl⟩ := hfate.only _ _ _ hat
    have hres := hfate.resolves fun hn => hn _ _ _ hat
    obtain ⟨i', d', hs, hc'⟩ := hres.has
    have hres' : Resolves (survivors sv s.files) p.id c G :=
      ⟨⟨i', d', syncedAt_survivors hs, hc'⟩, fun g i d hf => hres.newest g i d (at_of_survivors hf)⟩
    obtain ⟨d'', hd'', hG, hc''⟩ := hres'.decisionFor
    obtain rfl : d = d'' := Option.some.inj (hd.symm.trans hd'')
    rw [hc, Option.map_some] at hc''
    exact ⟨P, start, G, by rw [Fate.reopened, ← hc''], hG ▸ hg, hi⟩

theorem Traced.reopen [LinearOrder K] (h : s.Traced fate used attempted)
    (hr : Reopened size (survivors sv s.files) s.tables s.floor maxBytes s') (ha : s'.Aged) :
    s'.Traced (fun id => (fate id).reopened (survivors sv s.files) id) used attempted where
  aged := ha
  once := by
    rw [hr.files, prepares_new]
    exact hr.once
  fated := fun id => (h.fated id).reopen (h.one id) hr
  spent := fun id hne => h.spent id fun hf => hne (by rw [hf]; rfl)
  tried := fun g id i c hf => h.tried g id i c (at_of_survivors (hr.at_iff.mp hf))
  one := fun id g i c i' c' hf hf' => h.one id g i c i' c' (at_of_survivors (hr.at_iff.mp hf))
    (at_of_survivors (hr.at_iff.mp hf'))
  single := by rw [hr.unlinking]; exact Nat.zero_le 1
  calm := fun _ => hr.busy
  call := fun b hb => by rw [hr.busy] at hb; cases hb

variable [LinearOrder K]

theorem Reopened.in_of_decision {files : List (File I K V)} {tables : List (Item I K V)} {floor : Nat}
    {inst : Nat} {d : RecoveredDecision I} {i : Item I K V}
    (hr : Reopened size files tables floor maxBytes s') (hp : At files P (.prepare id inst ws))
    (hd : decisionFor (decisions files) id = some d) (hc : d.commit.map Prod.fst = some start)
    (hG : floor ≤ d.gen) (hi : i ∈ stampItems (.prepared id) start ws) : s'.In d.gen i := by
  obtain ⟨⟨start', n⟩, hcommit, rfl⟩ := Option.map_eq_some_iff.mp hc
  have hgen : d.gen ∈ files.map File.gen := mem_gens_of_at (mem_decisions.mp (decisionFor_eq_some hd).1)
  refine hr.in_of_mem (hr.inMem.mpr (.inl ⟨⟨id, inst, ws, P⟩, mem_prepares.mpr hp, ?_⟩)) hgen
  exact mem_items.mpr ⟨d, start', n, hd, hcommit, hG, hi⟩

theorem Stored.reopen (h : s.Stored fate dropped ticks) (ht : s.Traced fate used attempted)
    (hr : Reopened size (survivors sv s.files) s.tables s.floor maxBytes s') (hl : s'.Layers) :
    s'.Stored (fun id => (fate id).reopened (survivors sv s.files) id) dropped ticks where
  layers := hl
  placed := h.placed.reopen hr fun p hp i hi => by
    obtain ⟨P, start, G, hdec, hG, hi⟩ := ht.recovered hp hi
    rcases reopened_eq_decided hdec with hdec | ⟨hpend, -⟩
    · exact h.placed.mem i ((h.applied _ _ _ _ _ hdec).above hG i hi).inMem
    · -- Nothing of a pending transaction is anywhere.
      have hnone : ¬ s.Somewhere dropped i := fun hs => by
        obtain ⟨_, _, _, _, hdec, -⟩ := h.owned i p.id hs (source_of_mem_stampItems hi)
        rw [hpend] at hdec
        cases hdec
      exact ⟨fun h => hnone (.inr (.inl h)), fun h => hnone (.inr (.inr h))⟩
  applied := fun id ws P start G hdec => by
    have hfate := ht.fated id
    rcases reopened_eq_decided hdec with hdec | ⟨hpend, d, hd, hc, rfl⟩
    · rw [hdec] at hfate
      have ha := h.applied id ws P start G hdec
      refine ⟨fun hG i hi => ?_, fun hG i hi => ?_⟩
      · rw [hr.floor] at hG
        obtain ⟨inst, hs⟩ := (hfate.above hG).1
        have hres := hfate.resolves fun hn => hn _ _ _ hs.at
        obtain ⟨i', d', hs', hc'⟩ := hres.has
        have hres' : Resolves (survivors sv s.files) id (some start) G :=
          ⟨⟨i', d', syncedAt_survivors hs', hc'⟩, fun g i d hf => hres.newest g i d (at_of_survivors hf)⟩
        obtain ⟨d, hd, rfl, hc⟩ := hres'.decisionFor
        exact hr.in_of_decision (syncedAt_survivors hs).at hd hc hG hi
      · rw [hr.floor] at hG
        rw [hr.tables]
        exact ha.below hG i hi
    · rw [hpend] at hfate
      have hdat := mem_decisions.mp (decisionFor_eq_some hd).1
      rw [(decisionFor_eq_some hd).2.1] at hdat
      have hfloor : s.floor ≤ d.gen := by
        rcases hfate.aborts _ _ _ (at_of_survivors hdat) with hnone | hf
        · rw [hnone] at hc
          cases hc
        · exact hf.2
      refine ⟨fun _ i hi => ?_, fun hG => ?_⟩
      · obtain ⟨inst, hs⟩ := hfate.has
        exact hr.in_of_decision (syncedAt_survivors hs).at hd hc hfloor hi
      · rw [hr.floor] at hG
        exact absurd hG (Nat.not_lt.mpr hfloor)
  owned := fun i id hs hsrc => by
    have hold : s.Somewhere dropped i → ∃ ws P start G,
        (fate id).reopened (survivors sv s.files) id = .decided ws P (some start) G ∧
          i ∈ stampItems (.prepared id) start ws := fun hs => by
      obtain ⟨ws, P, start, G, hdec, hi⟩ := h.owned i id hs hsrc
      exact ⟨ws, P, start, G, by rw [hdec]; rfl, hi⟩
    rcases hs with hs | hs | hs
    · rcases hr.inMem.mp hs with ⟨p, hp, hi⟩ | hi
      · obtain ⟨P, start, G, hdec, -, hi⟩ := ht.recovered hp hi
        rw [source_of_mem_stampItems hi] at hsrc
        cases hsrc
        exact ⟨p.writes, P, start, G, hdec, hi⟩
      · obtain ⟨g, items, hat, hg, hi⟩ := mem_replayed.mp hi
        exact hold (.inl (h.placed.data g items (at_of_survivors hat) hg i hi).inMem)
    · exact hold (.inr (.inl (hr.tables ▸ hs)))
    · exact hold (.inr (.inr hs))
  ticks := fun i n hs hsrc => by
    rcases hs with hs | hs | hs
    · rcases hr.inMem.mp hs with ⟨p, hp, hi⟩ | hi
      · obtain ⟨_, _, _, -, -, hi⟩ := ht.recovered hp hi
        rw [source_of_mem_stampItems hi] at hsrc
        cases hsrc
      · obtain ⟨g, items, hat, hg, hi⟩ := mem_replayed.mp hi
        exact h.ticks i n (.inl (h.placed.data g items (at_of_survivors hat) hg i hi).inMem) hsrc
    · exact h.ticks i n (.inr (.inl (hr.tables ▸ hs))) hsrc
    · exact h.ticks i n (.inr (.inr hs)) hsrc

omit [LinearOrder K] in
theorem claims_reopened (files : List (File I K V)) (id : I) (f : Fate K V) :
    (f.reopened files id).claims ⊆ f.claims := by
  cases f <;> rw [Fate.reopened]
  case absent => exact List.Subset.refl _
  case decided => exact List.Subset.refl _
  case writing =>
    split
    · exact List.Subset.refl _
    · exact nil_subset _
  case pending =>
    split
    · exact List.Subset.refl _
    · exact nil_subset _

theorem Reopened.pending_of_undecided {files : List (File I K V)} {tables : List (Item I K V)} {floor : Nat}
    {p : RecoveredPrepare I K V} (hr : Reopened size files tables floor maxBytes s')
    (hf : s'.Fated p.id f) (hp : p ∈ prepares files) (hd : (decisionFor (decisions files) p.id).isNone) :
    f = .pending p.writes p.gen := by
  have hat : At s'.files p.gen (.prepare p.id p.inst p.writes) := hr.at_iff.mpr (mem_prepares.mp hp)
  have hl := hr.registered p hp
  rw [if_pos hd] at hl
  cases f
  case absent => exact absurd hat (hf.1 _ _ _)
  case writing => rw [hf.free] at hl; cases hl
  case pending =>
    obtain ⟨hP, hws⟩ := hf.only _ _ _ hat
    rw [hP, hws]
  case decided =>
    rcases hf.registered with hl' | ⟨_, _, -, hb, -⟩
    · rw [hl'] at hl
      cases hl
    · rw [hr.busy] at hb
      cases hb

theorem Claimed.reopen (h : s.Claimed fate)
    (hr : Reopened size (survivors sv s.files) s.tables s.floor maxBytes s')
    (hf : ∀ id, s'.Fated id ((fate id).reopened (survivors sv s.files) id)) :
    s'.Claimed fun id => (fate id).reopened (survivors sv s.files) id := by
  have hdisj : ∀ id id', id ≠ id' → ∀ w ∈ ((fate id).reopened (survivors sv s.files) id).claims,
      ∀ w' ∈ ((fate id').reopened (survivors sv s.files) id').claims, (w.cf, w.key) ≠ (w'.cf, w'.key) :=
    fun id id' hne w hw w' hw' =>
      h.disjoint id id' hne w (claims_reopened _ _ _ hw) w' (claims_reopened _ _ _ hw')
  refine ⟨?_, fun id ws P hpend w hw => ?_, hdisj⟩
  · refine ⟨((prepares (survivors sv s.files)).filter fun p =>
      (decisionFor (decisions (survivors sv s.files)) p.id).isNone).map fun p => (p.id, p.gen), ?_, ?_⟩
    · rw [map_map]
      exact hr.live
    · intro id e hl
      obtain ⟨p, hp, rfl⟩ := hr.known id e hl
      rw [hr.registered p hp] at hl
      split at hl
      case isTrue hd =>
        cases hl
        exact mem_map.mpr ⟨p, mem_filter.mpr ⟨hp, hd⟩, rfl⟩
      case isFalse => cases hl
  · have hp := hf id
    rw [hpend] at hp
    obtain ⟨inst, hs⟩ := hp.has
    have hmem : ⟨id, inst, ws, P⟩ ∈ prepares (survivors sv s.files) :=
      mem_prepares.mpr (hr.at_iff.mp hs.at)
    have hund : (decisionFor (decisions (survivors sv s.files)) id).isNone := by
      by_contra hd
      obtain ⟨e, hl, -⟩ := hp.registered
      rw [hr.registered _ hmem, if_neg hd] at hl
      cases hl
    refine hr.owners _ hmem hund w hw fun q hq hd hkey => ?_
    by_contra hne
    obtain ⟨w', hw', heq⟩ := hkey
    have hq' := hr.pending_of_undecided (hf q.id) hq hd
    refine hdisj q.id id hne w' ?_ w ?_ heq
    · rw [hq']; exact hw'
    · rw [hpend]; exact hw

end Reopen

end Store

end OndaDb.Prepared

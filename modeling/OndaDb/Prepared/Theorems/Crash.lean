import OndaDb.Prepared.Theorems.FateStep

namespace OndaDb.Prepared

variable {I K V : Type} [DecidableEq I]

def Fate.reopened (files : List (File I K V)) (id : I) : Fate K V → Fate K V
  | absent => absent
  | writing ws P => if id ∈ (Store.prepares files).map (·.id) then pending ws P else absent
  | pending ws P =>
    match Store.decisionFor (Store.decisions files) id with
    | none => pending ws P
    | some d => decided ws P (d.commit.map Prod.fst) d.gen
  | decided ws P c G => decided ws P c G

namespace Store

variable {s s' : Store I K V} {id : I} {ws : List (WriteEntry K V)} {P G g floor maxBytes : Nat}
  {c : Option Nat} {files : List (File I K V)} {tables : List (Item I K V)} {sv : Nat → Frame I K V → Bool}
  {size : List (WriteEntry K V) → Nat} {f : Frame I K V}

theorem Resolves.decisionFor (h : Resolves files id c G) :
    ∃ d, decisionFor (decisions files) id = some d ∧ d.gen = G ∧ d.commit.map Prod.fst = c := by
  obtain ⟨i, d, hs, hc⟩ := h.has
  have hmem : ⟨id, i, d, G⟩ ∈ decisions files := mem_decisions.mpr hs.at
  rcases hd : Store.decisionFor (decisions files) id with _ | d'
  · exact absurd rfl (decisionFor_eq_none hd _ hmem)
  · obtain ⟨hd', hid, hle⟩ := decisionFor_eq_some hd
    have hat := mem_decisions.mp hd'
    rw [hid] at hat
    have := hle _ hmem rfl
    rcases h.newest _ _ _ hat with hlt | ⟨hG, hc'⟩
    · exact absurd hlt (Nat.not_lt.mpr this)
    · exact ⟨d', rfl, hG, hc'⟩

variable [LinearOrder K]

namespace Reopened

theorem at_iff (h : Reopened size files tables floor maxBytes s) : At s.files g f ↔ At files g f := by
  rw [h.files, at_new]

theorem syncedAt (h : Reopened size files tables floor maxBytes s) (hs : SyncedAt files g f) :
    SyncedAt s.files g f := by
  rw [h.files]
  exact syncedAt_new.mpr hs

theorem not_unlinks (h : Reopened size files tables floor maxBytes s) : ¬ s.Unlinks g := by
  simp [Unlinks, h.unlinking]

theorem free (h : Reopened size files tables floor maxBytes s) (hn : ∀ g i ws, ¬ At files g (.prepare id i ws)) :
    s.registry.byId.lookup id = none := by
  rcases hl : s.registry.byId.lookup id with _ | e
  · rfl
  · obtain ⟨p, hp, rfl⟩ := h.known id e hl
    exact absurd (mem_prepares.mp hp) (hn _ _ _)

theorem pending (h : Reopened size files tables floor maxBytes s)
    (ho : ∀ g i ws', At files g (.prepare id i ws') → g = P ∧ ws' = ws)
    (hs : SyncedAt files P (.prepare id i ws)) (hd : decisionFor (decisions files) id = none) :
    s.Pending id ws P := by
  have hl := h.registered ⟨id, i, ws, P⟩ (mem_prepares.mpr hs.at)
  simp only [hd, Option.isNone_none, if_true] at hl
  have hnone : ∀ g i c, ¬ At s.files g (.decision id i c) := fun g i c hf =>
    decisionFor_eq_none hd _ (mem_decisions (d := ⟨id, i, c, g⟩).mpr (h.at_iff.mp hf)) rfl
  exact
    { only := fun g i ws' hf => ho g i ws' (h.at_iff.mp hf)
      registered := ⟨_, hl, rfl, rfl, rfl⟩
      has := ⟨i, h.syncedAt hs⟩
      stays := h.not_unlinks
      aborts := fun g i c hf => absurd hf (hnone g i c)
      older := fun _ _ g i c hf => absurd hf (hnone g i c)
      call := fun g b hb => by rw [h.busy] at hb; cases hb }

theorem logged (h : Reopened size files tables floor maxBytes s)
    (ho : ∀ g i ws', At files g (.prepare id i ws') → g = P ∧ ws' = ws)
    (hs : SyncedAt files P (.prepare id i ws)) (hr : Resolves files id c G) : s.Logged id ws P c G := by
  obtain ⟨d, hd, hG, -⟩ := hr.decisionFor
  have hmem : ⟨id, i, ws, P⟩ ∈ prepares files := mem_prepares.mpr hs.at
  have hl := h.registered _ hmem
  simp only [hd, Option.isNone_some, Bool.false_eq_true, if_false] at hl
  refine ⟨fun g i ws' hf => ho g i ws' (h.at_iff.mp hf), .inl hl, fun _ => ⟨?_, ?_⟩, fun _ => ?_,
    fun _ => ⟨⟨i, h.syncedAt hs⟩, h.not_unlinks⟩⟩
  · obtain ⟨i, d, hs, hc⟩ := hr.has
    exact ⟨i, d, h.syncedAt hs, hc⟩
  · exact fun g i d hf => hr.newest g i d (h.at_iff.mp hf)
  · refine .tomb (t := ⟨id, P, G, false, false⟩) ?_ rfl rfl rfl rfl h.not_unlinks h.not_unlinks
    rw [h.tombs]
    exact List.mem_flatMap.mpr ⟨_, hmem, by simp [hd, hG]⟩

end Reopened

theorem Fated.reopen {f : Fate K V} (h : s.Fated id f)
    (hone : ∀ g i c i' c', At s.files g (.decision id i c) → At s.files g (.decision id i' c') → c = c')
    (hr : Reopened size (survivors sv s.files) tables s.floor maxBytes s') :
    s'.Fated id (f.reopened (survivors sv s.files) id) := by
  cases f
  case absent =>
    exact ⟨fun g i ws hf => h.1 g i ws (at_of_survivors (hr.at_iff.mp hf)),
      hr.free fun g i ws hf => h.1 g i ws (at_of_survivors hf)⟩
  case writing ws P =>
    rw [Fate.reopened]
    split
    case isTrue hm =>
      obtain ⟨p, hp, rfl⟩ := List.mem_map.mp hm
      have hat := mem_prepares.mp hp
      obtain ⟨hP, hws⟩ := h.only _ _ _ (at_of_survivors hat)
      refine hr.pending (i := p.inst) (fun g i ws' hf => h.only g i ws' (at_of_survivors hf))
        (hP ▸ hws ▸ synced_of_survivors hat) ?_
      rcases hd : decisionFor (decisions (survivors sv s.files)) p.id with _ | d
      · rfl
      · obtain ⟨hd, hid, -⟩ := decisionFor_eq_some hd
        have hat := mem_decisions.mp hd
        rw [hid] at hat
        exact absurd (at_of_survivors hat) (h.undecided _ _ _)
    case isFalse hm =>
      have hn : ∀ g i ws, ¬ At (survivors sv s.files) g (.prepare id i ws) := fun g i ws hf =>
        hm (List.mem_map.mpr ⟨⟨id, i, ws, g⟩, mem_prepares.mpr hf, rfl⟩)
      exact ⟨fun g i ws hf => hn g i ws (hr.at_iff.mp hf), hr.free hn⟩
  case pending ws P =>
    obtain ⟨i, hs⟩ := h.has
    have ho : ∀ g i ws', At (survivors sv s.files) g (.prepare id i ws') → g = P ∧ ws' = ws :=
      fun g i ws' hf => h.only g i ws' (at_of_survivors hf)
    rw [Fate.reopened]
    split
    case h_1 hd => exact hr.pending ho (syncedAt_survivors hs) hd
    case h_2 d hd =>
      obtain ⟨hd, hid, hle⟩ := decisionFor_eq_some hd
      have hat := mem_decisions.mp hd
      rw [hid] at hat
      refine hr.logged ho (syncedAt_survivors hs) ⟨⟨_, _, synced_of_survivors hat, rfl⟩, fun g i d' hf => ?_⟩
      have hle := hle ⟨id, i, d', g⟩ (mem_decisions.mpr hf) rfl
      refine (Nat.lt_or_eq_of_le hle).imp_right fun heq => ⟨heq, ?_⟩
      obtain rfl : g = d.gen := heq
      rw [hone _ _ _ _ _ (at_of_survivors hf) (at_of_survivors hat)]
  case decided ws P c G =>
    have ho : ∀ g i ws', At (survivors sv s.files) g (.prepare id i ws') → g = P ∧ ws' = ws :=
      fun g i ws' hf => h.only g i ws' (at_of_survivors hf)
    rw [Fate.reopened]
    by_cases hn : ∀ g i ws, ¬ At (survivors sv s.files) g (.prepare id i ws)
    · have hn' : s'.NoPrepare id := fun g i ws hf => hn g i ws (hr.at_iff.mp hf)
      refine ⟨fun g i ws' hf => absurd hf (hn' g i ws'), .inl (hr.free hn), fun h => absurd hn' h,
        fun h => absurd hn' h, fun hf => ?_⟩
      rw [hr.floor] at hf
      obtain ⟨i, hs⟩ := (h.above hf).1
      exact absurd (syncedAt_survivors hs).at (hn _ _ _)
    · simp only [not_forall, not_not] at hn
      obtain ⟨g, i, ws', hf⟩ := hn
      obtain ⟨rfl, rfl⟩ := ho g i ws' hf
      have hres := h.resolves fun hn => hn g i ws' (at_of_survivors hf)
      obtain ⟨i', d, hs, hc⟩ := hres.has
      exact hr.logged ho (synced_of_survivors hf) ⟨⟨i', d, syncedAt_survivors hs, hc⟩,
        fun g i d hf => hres.newest g i d (at_of_survivors hf)⟩

end Store

end OndaDb.Prepared

import OndaDb.Parts.Theorems.Named

namespace OndaDb.Parts.State

open List

variable {R B : Type} {place : Backend → String → R} {s : State R B}

def destOf (place : Backend → String → R) (s : State R B) (m : Move B) (t : Table B) (ext : Ext) : Loc R :=
  s.tiers.pathFor place (s.relocated m.target t) ext

theorem destOf_name (m : Move B) (t : Table B) (ext : Ext) :
    (s.destOf place m t ext).name = .table t.id ext ∨ ∃ nonce, (s.destOf place m t ext).name = .object nonce t.id ext := by
  unfold destOf Tiers.pathFor
  split
  case h_1 => exact .inl rfl
  case h_2 o _ hobj =>
    dsimp only [relocated] at hobj
    split at hobj
    · obtain ⟨nonce, _, rfl⟩ := Option.map_eq_some_iff.mp hobj
      exact .inr ⟨nonce, rfl⟩
    · cases hobj
  case h_3 => exact .inl rfl

theorem id_eq_of_destOf_eq (h : s.destOf place m t ext = s.destOf place m' t' ext') :
    t.id = t'.id ∧ ext = ext' := by
  have hname := congrArg Loc.name h
  rcases destOf_name m t ext with h₁ | ⟨_, h₁⟩ <;> rcases destOf_name m' t' ext' with h₂ | ⟨_, h₂⟩
  all_goals rw [h₁, h₂] at hname
  · exact FileName.table.inj hname
  · exact FileName.noConfusion hname
  · exact FileName.noConfusion hname
  · exact (FileName.object.inj hname).right

theorem id_eq_of_destOf_name {id : Nat} (h : (s.destOf place m t ext).name = .table id ext') : t.id = id :=
  (Tiers.id_eq_of_name h).left

theorem id_eq_of_mem_locsOf {id : Nat} (hl : l ∈ s.locsOf place t) (hn : l.name = .table id ext) : t.id = id := by
  obtain ⟨_, _, rfl⟩ := mem_locsOf.mp hl
  exact (Tiers.id_eq_of_name hn).left

structure Waits (place : Backend → String → R) (s : State R B) : Prop where
  named : ∀ l ∈ s.waiting, ∃ id ext, l.name = .table id ext ∧ id < s.nextFileId ∧ ∀ t ∈ s.staged, t.id ≠ id
  dead : ∀ l ∈ s.waiting, ∀ t ∈ s.catalog, l ∉ s.locsOf place t
  awake : ∀ m ∈ s.moves, ∀ t ∈ m.tables, ∀ ext, s.destOf place m t ext ∉ s.waiting
  free : ∀ m ∈ s.moves, ∀ t ∈ m.tables, ∀ ext, ∀ t' ∈ s.catalog, s.destOf place m t ext ∉ s.locsOf place t'

namespace Waits

theorem atRest (h : s.AtRest) : s.Waits place := by
  constructor <;> simp [h.waiting, h.moves]

theorem of_quiet (h : s.Waits place) (hq : Quiet s s') : s'.Waits place := by
  obtain ⟨hc, hst, hm, ht, _, hno, hn, hw⟩ := hq
  have hlocs (t : Table B) : s'.locsOf place t = s.locsOf place t := by
    unfold locsOf
    rw [ht]
  have hdest (m : Move B) (t : Table B) (ext : Ext) : s'.destOf place m t ext = s.destOf place m t ext := by
    unfold destOf relocated
    rw [ht, hno]
  constructor
  case named => exact fun l hl => hst ▸ hn ▸ h.named l (hw l hl)
  case dead =>
    intro l hl t htc
    rw [hlocs]
    exact h.dead l (hw l hl) t (hc ▸ htc)
  case awake =>
    intro m hmm t htm ext hl
    rw [hdest] at hl
    exact h.awake m (hm ▸ hmm) t htm ext (hw _ hl)
  case free =>
    intro m hmm t htm ext t' ht'
    rw [hdest, hlocs]
    exact h.free m (hm ▸ hmm) t htm ext t' (hc ▸ ht')

variable [DecidableEq R] [DecidableEq B]

omit [DecidableEq R] [DecidableEq B] in
theorem mem_tableFiles (h : l ∈ s.tableFiles place t) :
    ¬s.tiers.tierIsShared t.tier ∧ ∃ ext, l = s.tiers.pathFor place t ext := by
  unfold tableFiles at h
  split at h
  case isTrue => cases h
  case isFalse hns =>
    rw [Bool.not_eq_true, Bool.or_eq_false_iff] at hns
    refine ⟨by rw [hns.right]; exact Bool.false_ne_true, ?_⟩
    split at h
    · rcases mem_cons.mp h with rfl | h
      · exact ⟨_, rfl⟩
      · exact ⟨_, mem_singleton.mp h⟩
    · exact ⟨_, mem_singleton.mp h⟩

theorem stage (h : s.Waits place) : (s.exec place (.stage cf klog vlog)).Waits place := by
  refine ⟨fun l hl => ?_, h.dead, h.awake, h.free⟩
  obtain ⟨i, ext, hname, hlt, hst⟩ := h.named l hl
  exact ⟨i, ext, hname, hlt.trans (Nat.lt_succ_self _), forall_mem_cons.mpr ⟨Nat.ne_of_gt hlt, hst⟩⟩

omit [DecidableEq R] [DecidableEq B] in
theorem mem_waiting_retiring :
    l ∈ { s with retiring := s.retiring ++ ls }.waiting ↔ l ∈ s.waiting ∨ l ∈ ls := by
  simp only [mem_waiting, mem_append]
  tauto

theorem abandon (h : s.Waits place) (hn : s.Named) (ht : t ∈ s.staged) :
    (s.exec place (.abandon t)).Waits place := by
  have hname (ext : Ext) : (s.tiers.pathFor place t ext).name = .table t.id ext := by
    rw [Tiers.pathFor_of_object_eq_none (hn.plain t ht)]
  have hmem {l : Loc R} (hl : l ∈ (s.exec place (.abandon t)).waiting) :
      l ∈ s.waiting ∨ ∃ ext, l.name = .table t.id ext := by
    refine (mem_waiting_retiring (s := { s with staged := s.staged.filter (· ≠ t) }).mp hl).imp_right fun hl => ?_
    rcases mem_cons.mp hl with rfl | hl
    · exact ⟨_, hname _⟩
    · rw [mem_singleton.mp hl]
      exact ⟨_, hname _⟩
  constructor
  case named =>
    intro l hl
    rcases hmem hl with hl | ⟨ext, hl⟩
    · obtain ⟨i, ext, hname, hlt, hst⟩ := h.named l hl
      exact ⟨i, ext, hname, hlt, fun t' ht' => hst t' (mem_filter.mp ht').left⟩
    · refine ⟨t.id, ext, hl, hn.fresh.right t ht, fun t' ht' hid => ?_⟩
      obtain ⟨ht', hne⟩ := mem_filter.mp ht'
      exact of_decide_eq_true hne (hn.single t ht t' ht' hid)
  case dead =>
    intro l hl t' ht' hin
    rcases hmem hl with hl | ⟨ext, hl⟩
    · exact h.dead l hl t' ht' hin
    · exact hn.unlisted t ht t' ht' (id_eq_of_mem_locsOf hin hl)
  case awake =>
    intro m hm t' ht' ext hl
    rcases hmem hl with hl | ⟨ext, hl⟩
    · exact h.awake m hm t' ht' _ hl
    · exact hn.unlisted t ht t' ((hn.moving m hm).right t' ht').left (id_eq_of_destOf_name hl)
  case free => exact h.free

theorem edit (h : s.Waits place) (hn : s.Named) (he : s.Enabled place (.edit adds drops)) :
    (s.exec place (.edit adds drops)).Waits place := by
  obtain ⟨hrun, hadds, hdrops⟩ := he
  have hcat {t : Table B} (ht : t ∈ (s.exec place (.edit adds drops)).catalog) :
      (t ∈ s.catalog ∧ t ∉ drops) ∨ t ∈ s.staged := by
    rcases mem_append.mp ht with ht | ht
    · exact .inl ⟨(mem_filter.mp ht).left, of_decide_eq_true (mem_filter.mp ht).right⟩
    · exact .inr (hadds t ht)
  have hmem {l : Loc R} (hl : l ∈ (s.exec place (.edit adds drops)).waiting) :
      l ∈ s.waiting ∨ ∃ t ∈ drops, ∃ ext, l.name = .table t.id ext := by
    refine (mem_waiting_retiring (s := { s with
      catalog := s.catalog.filter (· ∉ drops) ++ adds
      staged := s.staged.filter (· ∉ adds) }).mp hl).imp_right fun hl => ?_
    obtain ⟨t, ht, hl⟩ := mem_flatMap.mp hl
    obtain ⟨hns, ext, rfl⟩ := mem_tableFiles hl
    have hobj : t.object = none := by
      by_contra ho
      refine hns (hn.shared (by rw [hrun]; exact Phase.noConfusion) t (hdrops t ht).left ?_)
      exact Option.isSome_iff_ne_none.mpr ho
    exact ⟨t, ht, ext, by rw [Tiers.pathFor_of_object_eq_none hobj]⟩
  constructor
  case named =>
    intro l hl
    rcases hmem hl with hl | ⟨t, ht, ext, hl⟩
    · obtain ⟨i, ext, hname, hlt, hst⟩ := h.named l hl
      exact ⟨i, ext, hname, hlt, fun t' ht' => hst t' (mem_filter.mp ht').left⟩
    · have hc := (hdrops t ht).left
      exact ⟨t.id, ext, hl, hn.fresh.left t hc, fun t' ht' hid =>
        hn.unlisted t' (mem_filter.mp ht').left t hc hid.symm⟩
  case dead =>
    intro l hl t' ht' hin
    rcases hmem hl with hl | ⟨t, ht, ext, hl⟩ <;> rcases hcat ht' with ⟨hc, hnd⟩ | hs
    · exact h.dead l hl t' hc hin
    · obtain ⟨i, ext, hname, _, hst⟩ := h.named l hl
      exact hst t' hs (id_eq_of_mem_locsOf hin hname)
    · exact hnd (hn.distinct t' hc t (hdrops t ht).left (id_eq_of_mem_locsOf hin hl) ▸ ht)
    · exact hn.unlisted t' hs t (hdrops t ht).left (id_eq_of_mem_locsOf hin hl).symm
  case awake =>
    intro m hm t' ht' ext hl
    rcases hmem hl with hl | ⟨t, ht, ext, hl⟩
    · exact h.awake m hm t' ht' _ hl
    · obtain ⟨hc, hnm⟩ := hdrops t ht
      refine hnm m hm ?_
      rwa [← hn.distinct t' ((hn.moving m hm).right t' ht').left t hc (id_eq_of_destOf_name hl)]
  case free =>
    intro m hm t ht ext t' ht' hin
    rcases hcat ht' with ⟨hc, _⟩ | hs
    · exact h.free m hm t ht ext t' hc hin
    · obtain ⟨ext', _, he⟩ := mem_locsOf.mp hin
      have hname : (s.destOf place m t ext).name = .table t'.id ext' :=
        congrArg Loc.name (he.trans (Tiers.pathFor_of_object_eq_none (hn.plain t' hs)))
      exact hn.unlisted t' hs t ((hn.moving m hm).right t ht).left (id_eq_of_destOf_name hname)

theorem moveStart (h : s.Waits place) (hc : s.Clear place (.moveStart tables target)) :
    (s.exec place (.moveStart tables target)).Waits place := by
  have hclear (t : Table B) (ht : t ∈ tables) (ext : Ext) := hc t ht ext (by cases ext <;> simp)
  exact ⟨h.named, h.dead, forall_mem_cons.mpr ⟨fun t ht ext => (hclear t ht ext).left, h.awake⟩,
    forall_mem_cons.mpr ⟨fun t ht ext => (hclear t ht ext).right, h.free⟩⟩

theorem copyEnd (h : s.Waits place) (hm : m ∈ s.moves) : (s.exec place (.copyEnd m t ext)).Waits place :=
  ⟨h.named, h.dead,
    forall_mem_cons.mpr ⟨h.awake m hm, fun m' hm' => h.awake m' (mem_of_mem_erase hm')⟩,
    forall_mem_cons.mpr ⟨h.free m hm, fun m' hm' => h.free m' (mem_of_mem_erase hm')⟩⟩

theorem moveFail (h : s.Waits place) : (s.exec place (.moveFail m)).Waits place :=
  ⟨h.named, h.dead, fun m' hm' => h.awake m' (mem_of_mem_erase hm'),
    fun m' hm' => h.free m' (mem_of_mem_erase hm')⟩

theorem flip (h : s.Waits place) (hn : s.Named) (hm : m ∈ s.moves) : (s.exec place (.flip m)).Waits place := by
  have hmem {l : Loc R} (hl : l ∈ (s.exec place (.flip m)).waiting) :
      l ∈ s.waiting ∨ ∃ t ∈ m.tables, ∃ ext, l = s.tiers.pathFor place t ext ∧ l.name = .table t.id ext := by
    refine (mem_waiting_retiring (s := { s with
      catalog := s.catalog.map fun t => if t ∈ m.tables then s.relocated m.target t else t
      moves := s.moves.erase m }).mp hl).imp_right fun hl => ?_
    obtain ⟨t, ht, hl⟩ := mem_flatMap.mp hl
    obtain ⟨ext, _, rfl⟩ := mem_map.mp hl
    exact ⟨t, ht, ext, rfl, by rw [Tiers.pathFor_of_object_eq_none (hn.object_eq_none hm ht)]⟩
  have hcat {t : Table B} (ht : t ∈ m.tables) : t ∈ s.catalog := ((hn.moving m hm).right t ht).left
  constructor
  case named =>
    intro l hl
    rcases hmem hl with hl | ⟨t, ht, ext, _, hl⟩
    · exact h.named l hl
    · exact ⟨t.id, ext, hl, hn.fresh.left t (hcat ht), fun t' ht' hid =>
        hn.unlisted t' ht' t (hcat ht) hid.symm⟩
  case dead =>
    intro l hl t' ht' hin
    obtain ⟨t₀, hc₀, ⟨hin₀, rfl⟩ | ⟨hin₀, rfl⟩⟩ := Named.exists_of_mem_flip ht'
    · obtain ⟨ext, hsome, rfl⟩ := mem_locsOf.mp hin
      rcases hmem hl with hl | ⟨t, ht, ext', he, hl⟩
      · exact h.awake m hm t₀ hin₀ ext hl
      -- The source of the table, which is one of its files, is not where the move has put it.
      · obtain ⟨hid, rfl⟩ := Tiers.id_eq_of_name hl
        cases hn.distinct t₀ hc₀ t (hcat ht) hid
        exact h.free m hm t₀ hin₀ ext t₀ hc₀ (mem_locsOf.mpr ⟨ext, hsome, he⟩)
    · rcases hmem hl with hl | ⟨t, ht, ext', _, hl⟩
      · exact h.dead l hl t' hc₀ hin
      · exact hin₀ (hn.distinct t' hc₀ t (hcat ht) (id_eq_of_mem_locsOf hin hl) ▸ ht)
  case awake =>
    intro m' hm' t' ht' ext hl
    rcases hmem hl with hl | ⟨t, ht, ext', _, hl⟩
    · exact h.awake m' (mem_of_mem_erase hm') t' ht' ext hl
    · have hc' := ((hn.moving m' (mem_of_mem_erase hm')).right t' ht').left
      refine hn.disjoint_of_mem_erase hm hm' ht' ?_
      rwa [hn.distinct t' hc' t (hcat ht) (id_eq_of_destOf_name hl)]
  case free =>
    intro m' hm' t ht ext t' ht' hin
    have hm₀ := mem_of_mem_erase hm'
    obtain ⟨t₀, hc₀, ⟨hin₀, rfl⟩ | ⟨hin₀, rfl⟩⟩ := Named.exists_of_mem_flip ht'
    · obtain ⟨ext', _, he⟩ := mem_locsOf.mp hin
      have hid : t.id = t₀.id := (id_eq_of_destOf_eq he).left
      refine hn.disjoint_of_mem_erase hm hm' ht ?_
      rwa [hn.distinct t ((hn.moving m' hm₀).right t ht).left t₀ hc₀ hid]
    · exact h.free m' hm₀ t ht ext t' hc₀ hin

theorem exec (h : s.Waits place) (hn : s.Named) (he : s.Enabled place e) (hc : s.Clear place e) :
    (s.exec place e).Waits place := by
  cases e
  case stage => exact h.stage
  case abandon => exact h.abandon hn he
  case edit => exact h.edit hn he
  case moveStart => exact h.moveStart hc
  case copyEnd => exact h.copyEnd he.left
  case moveFail => exact h.moveFail
  case flip => exact h.flip hn he.left
  case copyStart => exact h.of_quiet .copyStart
  case retire => exact h.of_quiet (.retire he)
  case pause => exact h.of_quiet .pause
  case resume => exact h.of_quiet .resume
  case dispatch => exact h.of_quiet (.dispatch he)
  case work => exact h.of_quiet .work
  case sweep => exact h.of_quiet .sweep
  case crash =>
    constructor
    all_goals exact fun _ hm => absurd hm not_mem_nil
  case «open» tiers =>
    have hidle := hn.idle (by rw [show s.phase = .closed from he]; exact Phase.noConfusion)
    have hw : (s.exec place (.open tiers)).waiting = [] := hidle.right.right
    have hmv : (s.exec place (.open tiers)).moves = [] := hidle.right.left
    constructor <;> simp [hw, hmv]
  case opened => exact { h with }

end Waits

section

variable [DecidableEq R] [DecidableEq B]

def ClearStep (place : Backend → String → R) (s s' : State R B) : Prop :=
  ∃ e, s.Enabled place e ∧ s.Clear place e ∧ s' = s.exec place e

theorem named_and_waits (h₀ : s₀.AtRest) (h : Reachable s₀ (ClearStep place) s) :
    s.Named ∧ s.Waits place := by
  refine h.invariant (I := fun s => s.Named ∧ s.Waits place) ⟨.atRest h₀, .atRest h₀⟩ fun s s' hst hi => ?_
  obtain ⟨e, he, hc, rfl⟩ := hst
  exact ⟨hi.left.exec he hc, hi.right.exec hi.left he hc⟩

omit [DecidableEq B] in
theorem mem_waiting_of_executes (he : s.Enabled place e) (hx : s.executes e = some l) : l ∈ s.waiting := by
  rw [mem_waiting]
  cases e
  case dispatch =>
    simp only [executes] at hx
    split at hx
    · cases hx
    · cases hx
      exact .inr (.inr (.inl he))
  case work => exact .inr (.inr (.inr (mem_of_head? hx)))
  all_goals cases hx

-- In a run whose moves write to no path that a table has or that a task waits for, every task that is
-- executed deletes a file that no table of the catalog resolves to.
theorem deletion_spares_live {s₀ : State R B} (h₀ : s₀.AtRest) (h : Reachable s₀ (ClearStep place) s) :
    ∀ e l, s.Enabled place e → s.executes e = some l → ∀ t ∈ s.catalog, l ∉ s.locsOf place t :=
  fun _ _ he hx => (named_and_waits h₀ h).right.dead _ (mem_waiting_of_executes he hx)

end

section Examples

def spelled (backend : Backend) (root : String) : Backend × String :=
  (backend, root)

def disks : Tiers := ⟨"db", [⟨"hdd", "hdd", false, .disk⟩, ⟨"nfs", "nfs", false, .disk⟩]⟩

def table : Table Nat := ⟨"a", 1, none, none, 10, some 11⟩

def onTier (tier : Option String) (t : Table Nat) : Table Nat := { t with tier }

def klogAt (root : String) : Loc (Backend × String) := ⟨(.disk, root), "cf-a", .table 1 .klog⟩

def vlogAt (root : String) : Loc (Backend × String) := ⟨(.disk, root), "cf-a", .table 1 .vlog⟩

def onDisk : Map (Loc (Backend × String)) (Option Nat) :=
  AList.insert (klogAt "db") (some 10) (AList.insert (vlogAt "db") (some 11) ∅)

def atRest (paced : Bool) : State (Backend × String) Nat where
  tiers := disks
  phase := .closed
  nonce := none
  families := ["a"]
  catalog := [table]
  files := onDisk
  nextFileId := 2
  staged := []
  moves := []
  retiring := []
  disabled := 0
  pending := []
  dispatched := []
  paced := paced
  queue := []

theorem atRest_atRest (paced : Bool) : (atRest paced).AtRest :=
  ⟨rfl, rfl, rfl, rfl, by simp [atRest], by simp [atRest, table]⟩

def moveEvents (t : Table Nat) (target : Option String) : List (Event (Backend × String) Nat) :=
  [.moveStart [t] target, .copyStart ⟨[t], target, []⟩ t .klog, .copyEnd ⟨[t], target, []⟩ t .klog,
    .copyStart ⟨[t], target, [(t.id, .klog)]⟩ t .vlog, .copyEnd ⟨[t], target, [(t.id, .klog)]⟩ t .vlog,
    .flip ⟨[t], target, [(t.id, .vlog), (t.id, .klog)]⟩]

-- Moved away and back while a checkpoint holds deletions back, which then ends.
def movedBack : List (Event (Backend × String) Nat) :=
  [.open disks, .opened, .pause] ++ moveEvents table (some "hdd") ++ [.retire (klogAt "db"), .retire (vlogAt "db")] ++
    moveEvents (onTier (some "hdd") table) none ++ [.resume]

def runOf (paced : Bool) (es : List (Event (Backend × String) Nat)) : State (Backend × String) Nat :=
  es.foldl (exec spelled) (atRest paced)

-- Moved from tier to tier with the deletions of the worker in between.
def movedOn : List (Event (Backend × String) Nat) :=
  [.open disks, .opened] ++ moveEvents table (some "hdd") ++ [.retire (klogAt "db"), .dispatch (klogAt "db")] ++
    moveEvents (onTier (some "hdd") table) (some "nfs")

theorem deletion_spares_live_movedOn :
    (runOf true movedOn).executes .work = some (klogAt "db") ∧
    (runOf true movedOn).catalog = [onTier (some "nfs") table] ∧
    klogAt "db" ∉ (runOf true movedOn).locsOf spelled (onTier (some "nfs") table) := by
  have h : Reachable (atRest true) (ClearStep spelled) (runOf true movedOn) :=
    Reachable.start.foldl (P := fun s e => s.Enabled spelled e ∧ s.Clear spelled e)
      (fun _ e he => ⟨e, he.left, he.right, rfl⟩) (by decide +kernel)
  have hx : (runOf true movedOn).executes .work = some (klogAt "db") := by decide +kernel
  have hc : (runOf true movedOn).catalog = [onTier (some "nfs") table] := by decide +kernel
  exact ⟨hx, hc, deletion_spares_live (atRest_atRest true) h .work _ (by decide +kernel) hx _ (by rw [hc]; decide)⟩

-- The klog of a live table is deleted when the pause ends.
theorem deletion_hits_live :
    Allowed (exec spelled) (Enabled spelled) (atRest false) movedBack ∧
    (runOf false movedBack).executes (.dispatch (klogAt "db")) = some (klogAt "db") ∧
    (runOf false movedBack).Enabled spelled (.dispatch (klogAt "db")) ∧
    (runOf false movedBack).catalog = [table] ∧
    klogAt "db" ∈ (runOf false movedBack).locsOf spelled table := by
  decide +kernel

end Examples

end OndaDb.Parts.State

import OndaDb.Parts.Theorems.Deletion

namespace OndaDb.Parts.State

open List

variable {R B : Type} [DecidableEq R] [DecidableEq B] {place : Backend → String → R} {s s' : State R B}

-- The files of the catalog, of what is staged, and of the copies that moves have finished.
structure Kept (place : Backend → String → R) (s : State R B) : Prop where
  intact : ∀ t ∈ s.catalog, s.Intact place t
  staged : ∀ t ∈ s.staged, s.Intact place t
  copied : ∀ m ∈ s.moves, ∀ t ∈ m.tables, ∀ ext, (t.id, ext) ∈ m.copied → ∀ b, t.content ext = some b →
    s.files.lookup (s.destOf place m t ext) = some (some b)
  swept : s.phase = .opening → ∀ t ∈ s.catalog, s.tiers.SweepsApart place t

omit [DecidableEq B] in
theorem Intact.of_files (h : s.Intact place t) (ht : s'.tiers = s.tiers)
    (hf : ∀ l ∈ s.locsOf place t, s'.files.lookup l = s.files.lookup l) : s'.Intact place t := by
  unfold Intact
  rw [ht]
  exact Parts.Intact.of_lookup h fun ext hs => hf _ (mem_locsOf.mpr ⟨ext, hs, rfl⟩)

namespace Kept

omit [DecidableEq B] in
theorem atRest (h : s.AtRest) (hf : ∀ t ∈ s.catalog, s.Intact place t) : s.Kept place where
  intact := hf
  staged := by simp [h.staged]
  copied := by simp [h.moves]
  swept := fun ho => by cases h.phase.symm.trans ho

omit [DecidableEq B] in
theorem of_quiet (h : s.Kept place) (hq : Quiet s s') (hlive : ∀ t ∈ s.catalog, l ∉ s.locsOf place t)
    (hstaged : ∀ t ∈ s.staged, l ∉ s.locsOf place t)
    (hcopied : ∀ m ∈ s.moves, ∀ t ∈ m.tables, ∀ ext, (t.id, ext) ∈ m.copied → s.destOf place m t ext ≠ l)
    (hf : ∀ l' ≠ l, s'.files.lookup l' = s.files.lookup l') : s'.Kept place := by
  have hkeep {t : Table B} (hi : s.Intact place t) (hl : l ∉ s.locsOf place t) : s'.Intact place t :=
    hi.of_files hq.tiers fun l' hl' => hf l' fun he => hl (he ▸ hl')
  constructor
  case intact => exact fun t ht => hkeep (h.intact t (hq.catalog ▸ ht)) (hlive t (hq.catalog ▸ ht))
  case staged => exact fun t ht => hkeep (h.staged t (hq.staged ▸ ht)) (hstaged t (hq.staged ▸ ht))
  case copied =>
    intro m hm t ht ext hin b hb
    have hd : s'.destOf place m t ext = s.destOf place m t ext := by
      unfold destOf relocated
      rw [hq.tiers, hq.nonce]
    have hm := hq.moves ▸ hm
    rw [hd, hf _ (hcopied m hm t ht ext hin)]
    exact h.copied m hm t ht ext hin b hb
  case swept => exact hq.tiers ▸ hq.catalog ▸ hq.phase ▸ h.swept

omit [DecidableEq B] in
theorem of_quiet_of_files_eq (h : s.Kept place) (hq : Quiet s s') (hf : s'.files = s.files) : s'.Kept place := by
  constructor
  case intact => exact fun t ht => (h.intact t (hq.catalog ▸ ht)).of_files hq.tiers fun _ _ => hf ▸ rfl
  case staged => exact fun t ht => (h.staged t (hq.staged ▸ ht)).of_files hq.tiers fun _ _ => hf ▸ rfl
  case copied =>
    intro m hm t ht ext hin b hb
    have hd : s'.destOf place m t ext = s.destOf place m t ext := by
      unfold destOf relocated
      rw [hq.tiers, hq.nonce]
    rw [hd, hf]
    exact h.copied m (hq.moves ▸ hm) t ht ext hin b hb
  case swept => exact hq.tiers ▸ hq.catalog ▸ hq.phase ▸ h.swept

omit [DecidableEq B] in
theorem remove (h : s.Kept place) (hw : s.Waits place) (hl : l ∈ s.waiting) (hq : Quiet s s')
    (hf : s'.files = s.files.erase l) : s'.Kept place := by
  obtain ⟨i, ext, hname, _, hids⟩ := hw.named l hl
  refine h.of_quiet hq (hw.dead l hl) (fun t ht hin => ?_) (fun m hm t ht e _ he => ?_) fun l' hne => ?_
  · exact hids t ht (id_eq_of_mem_locsOf hin hname)
  · exact hw.awake m hm t ht e (he ▸ hl)
  · rw [hf, Map.lookup_erase_eq, if_neg hne]

theorem stage (h : s.Kept place) (hn : s.Named) : (s.exec place (.stage cf klog vlog)).Kept place := by
  have hf {l : Loc R} (hl : ∀ ext, l.name ≠ .table s.nextFileId ext) :
      (s.exec place (.stage cf klog vlog)).files.lookup l = s.files.lookup l := by
    have hne (ext : Ext) : l ≠ s.tiers.pathFor place ⟨cf, s.nextFileId, none, none, klog, vlog⟩ ext :=
      fun he => hl ext (congrArg Loc.name he)
    simp only [exec]
    cases vlog <;> simp only [Option.elim, Map.lookup_insert_eq, if_neg (hne _)]
  have hkeep {t : Table B} (hi : s.Intact place t) (hlt : t.id < s.nextFileId) :
      (s.exec place (.stage cf klog vlog)).Intact place t :=
    hi.of_files rfl fun l hl => hf fun ext he => Nat.ne_of_lt hlt (id_eq_of_mem_locsOf hl he)
  constructor
  case intact => exact fun t ht => hkeep (h.intact t ht) (hn.fresh.left t ht)
  case staged =>
    refine forall_mem_cons.mpr ⟨fun ext b hb => ?_, fun t ht => hkeep (h.staged t ht) (hn.fresh.right t ht)⟩
    simp only [exec]
    cases ext
    case klog =>
      cases hb
      cases vlog
      case none => simp only [Option.elim, Map.lookup_insert_eq, if_true]
      case some v =>
        simp only [Option.elim, Map.lookup_insert_eq, if_true]
        exact if_neg fun he => by cases congrArg Loc.name he
    case vlog =>
      obtain rfl : vlog = some b := hb
      simp only [Option.elim, Map.lookup_insert_eq, if_true]
  case copied =>
    intro m hm t ht ext hin b hb
    refine (hf fun ext' he => ?_).trans (h.copied m hm t ht ext hin b hb)
    exact Nat.ne_of_lt (hn.fresh.left t ((hn.moving m hm).right t ht).left) (id_eq_of_destOf_name he)
  case swept => exact h.swept

omit [DecidableEq R] in
theorem destOf_ne (hn : s.Named) (hm : m ∈ s.moves) (ht : t ∈ m.tables) (hnot : (t.id, ext) ∉ m.copied)
    (hm' : m' ∈ s.moves) (ht' : t' ∈ m'.tables) (hin : (t'.id, ext') ∈ m'.copied) :
    s.destOf place m' t' ext' ≠ s.destOf place m t ext := by
  intro he
  obtain ⟨hid, rfl⟩ := id_eq_of_destOf_eq he
  cases hn.distinct t' ((hn.moving m' hm').right t' ht').left t ((hn.moving m hm).right t ht).left hid
  cases hn.move_unique hm hm' ht ht'
  exact hnot hin

omit [DecidableEq R] [DecidableEq B] in
theorem destOf_not_mem_staged (hn : s.Named) (hm : m ∈ s.moves) (ht : t ∈ m.tables) (ht' : t' ∈ s.staged) :
    s.destOf place m t ext ∉ s.locsOf place t' := by
  intro hin
  obtain ⟨ext', _, he⟩ := mem_locsOf.mp hin
  have hname : (s.destOf place m t ext).name = .table t'.id ext' :=
    congrArg Loc.name (he.trans (Tiers.pathFor_of_object_eq_none (hn.plain t' ht')))
  exact hn.unlisted t' ht' t ((hn.moving m hm).right t ht).left (id_eq_of_destOf_name hname)

theorem copyStart (h : s.Kept place) (hn : s.Named) (hw : s.Waits place) (he : s.Enabled place (.copyStart m t ext)) :
    (s.exec place (.copyStart m t ext)).Kept place := by
  obtain ⟨hm, ht, _, hnot⟩ := he
  refine h.of_quiet (l := s.destOf place m t ext) .copyStart (hw.free m hm t ht ext)
    (fun t' ht' => destOf_not_mem_staged hn hm ht ht') (fun m' hm' t' ht' e => destOf_ne hn hm ht hnot hm' ht')
    fun l hne => ?_
  simp only [exec]
  split
  · exact (Map.lookup_insert_eq _ _ _).trans (if_neg hne)
  · rfl

theorem copyEnd (h : s.Kept place) (hn : s.Named) (hw : s.Waits place) (he : s.Enabled place (.copyEnd m t ext)) :
    (s.exec place (.copyEnd m t ext)).Kept place := by
  obtain ⟨hm, ht, _, hnot, _⟩ := he
  have hc := ((hn.moving m hm).right t ht).left
  let content := (s.files.lookup (s.tiers.pathFor place t ext)).getD none
  have hk : { s with files := s.files.insert (s.destOf place m t ext) content }.Kept place :=
    h.of_quiet (l := s.destOf place m t ext) ⟨rfl, rfl, rfl, rfl, rfl, rfl, rfl, fun _ => id⟩ (hw.free m hm t ht ext)
      (fun t' ht' => destOf_not_mem_staged hn hm ht ht') (fun m' hm' t' ht' e => destOf_ne hn hm ht hnot hm' ht')
      fun l hne => (Map.lookup_insert_eq _ _ _).trans (if_neg hne)
  refine ⟨hk.intact, hk.staged, forall_mem_cons.mpr ⟨fun t' ht' e hin b hb => ?_, fun m' hm' =>
    hk.copied m' (mem_of_mem_erase hm')⟩, hk.swept⟩
  rcases mem_cons.mp hin with hin | hin
  · obtain ⟨hid, rfl⟩ := Prod.mk.inj hin
    cases hn.distinct t' ((hn.moving m hm).right t' ht').left t hc hid
    refine (Map.lookup_insert_eq _ _ _).trans ((if_pos rfl).trans ?_)
    rw [h.intact t hc e b hb]
    rfl
  · exact hk.copied m hm t' ht' e hin b hb

theorem edit (h : s.Kept place) (he : s.Enabled place (.edit adds drops)) :
    (s.exec place (.edit adds drops)).Kept place := by
  obtain ⟨hrun, hadds, _⟩ := he
  refine ⟨fun t ht => ?_, fun t ht => h.staged t (mem_filter.mp ht).left, h.copied,
    fun ho => by cases hrun.symm.trans ho⟩
  rcases mem_append.mp ht with ht | ht
  · exact h.intact t (mem_filter.mp ht).left
  · exact h.staged t (hadds t ht)

omit [DecidableEq B] in
theorem mem_copiesOf (h : s.Kept place) (hc : t ∈ s.catalog) (hb : t.content ext = some b) :
    ext ∈ s.copiesOf place t := by
  cases ext
  case klog => exact mem_cons_self
  case vlog =>
    have hs : s.sourceHasVlog place t := by
      unfold sourceHasVlog
      split
      · rw [h.intact t hc .vlog b hb]
        rfl
      · rw [show t.vlog = some b from hb]
        rfl
    unfold copiesOf
    rw [if_pos hs]
    exact mem_cons_of_mem _ mem_cons_self

theorem flip (h : s.Kept place) (hn : s.Named) (he : s.Enabled place (.flip m)) :
    (s.exec place (.flip m)).Kept place := by
  obtain ⟨hm, hall⟩ := he
  refine ⟨fun t ht => ?_, h.staged, fun m' hm' => h.copied m' (mem_of_mem_erase hm'), fun ho => ?_⟩
  · obtain ⟨t₀, hc₀, ⟨hin, rfl⟩ | ⟨_, rfl⟩⟩ := Named.exists_of_mem_flip ht
    · exact fun ext b hb => h.copied m hm t₀ hin ext (hall t₀ hin ext (h.mem_copiesOf hc₀ hb)) b hb
    · exact h.intact t hc₀
  · cases (hn.running_of_mem_moves hm).symm.trans ho

-- The only tier under whose name the sweep lists the directory of a table is its own.
theorem sweep (h : s.Kept place) (hn : s.Named) (he : s.Enabled place (.sweep cf location i ext)) :
    (s.exec place (.sweep cf location i ext)).Kept place := by
  obtain ⟨hop, _, hloc, hro, _⟩ := he
  have hidle := hn.idle (by rw [hop]; exact Phase.noConfusion)
  by_cases hmis : sstIsMisplaced (manifestTier s.catalog cf i) location
  case neg => exact h.of_quiet_of_files_eq .sweep (by simp only [exec, if_neg hmis])
  refine h.of_quiet (l := ⟨s.tiers.rootAt place location, cfDirName cf, .table i ext⟩) .sweep
    (fun t ht hin => ?_) (by simp [hidle.left]) (by simp [hidle.right.left]) fun l hne => ?_
  · obtain ⟨e, _, hl⟩ := mem_locsOf.mp hin
    have hs := hn.shared (by rw [hop]; exact Phase.noConfusion) t ht
    exact not_misplaced hn.distinct ht hs (h.swept hop t ht) hloc hro hl hmis
  · simp only [exec, if_pos hmis]
    exact (Map.lookup_erase_eq _ _).trans (if_neg hne)

theorem «open» {tiers : Tiers} (h : s.Kept place) (hn : s.Named) (he : s.phase = .closed) (ha : s.Apart place (.open tiers)) :
    (s.exec place (.open tiers)).Kept place := by
  have hidle := hn.idle (by rw [he]; exact Phase.noConfusion)
  constructor
  case intact =>
    intro t ht ext b hb
    have hp := (ha t ht).left ext (by cases ext <;> simp)
    exact (congrArg s.files.lookup hp).trans (h.intact t ht ext b hb)
  case staged =>
    rw [show (s.exec place (.open tiers)).staged = s.staged from rfl, hidle.left]
    exact fun _ ht => absurd ht not_mem_nil
  case copied =>
    rw [show (s.exec place (.open tiers)).moves = s.moves from rfl, hidle.right.left]
    exact fun _ hm => absurd hm not_mem_nil
  case swept => exact fun _ t ht => (ha t ht).right

theorem exec (h : s.Kept place) (hn : s.Named) (hw : s.Waits place) (he : s.Enabled place e)
    (ha : s.Apart place e) : (s.exec place e).Kept place := by
  cases e
  case stage => exact h.stage hn
  case abandon => exact ⟨h.intact, fun t ht => h.staged t (mem_filter.mp ht).left, h.copied, h.swept⟩
  case edit => exact h.edit he
  case moveStart =>
    refine ⟨h.intact, h.staged, forall_mem_cons.mpr ⟨fun t _ ext hin => ?_, h.copied⟩, h.swept⟩
    exact absurd hin not_mem_nil
  case copyStart => exact h.copyStart hn hw he
  case copyEnd => exact h.copyEnd hn hw he
  case moveFail => exact ⟨h.intact, h.staged, fun m hm => h.copied m (mem_of_mem_erase hm), h.swept⟩
  case flip => exact h.flip hn he
  case retire => exact h.of_quiet_of_files_eq (.retire he) (by simp only [State.exec]; split <;> rfl)
  case pause => exact h.of_quiet_of_files_eq .pause rfl
  case resume => exact h.of_quiet_of_files_eq .resume (by simp only [State.exec]; split <;> rfl)
  case dispatch l =>
    by_cases hp : s.paced
    · exact h.of_quiet_of_files_eq (.dispatch he) (by simp only [State.exec, if_pos hp])
    · refine h.remove hw (mem_waiting_of_executes he ?_) (.dispatch he) (by simp only [State.exec, if_neg hp]; rfl)
      simp only [executes, if_neg hp]
  case work =>
    obtain ⟨l, rest, hq⟩ := exists_cons_of_ne_nil he
    have hl : l ∈ s.waiting := mem_waiting.mpr (.inr (.inr (.inr (hq ▸ mem_cons_self))))
    exact h.remove hw hl .work (by simp only [State.exec, hq]; rfl)
  case crash =>
    exact ⟨h.intact, fun _ ht => absurd ht not_mem_nil, fun _ hm => absurd hm not_mem_nil,
      fun ho => by cases ho⟩
  case «open» => exact h.open hn he ha
  case sweep => exact h.sweep hn he
  case opened => exact ⟨h.intact, h.staged, h.copied, fun ho => by cases ho⟩

end Kept

def ApartStep (place : Backend → String → R) (s s' : State R B) : Prop :=
  ∃ e, s.Enabled place e ∧ s.Clear place e ∧ s.Apart place e ∧ s' = s.exec place e

-- In such a run the files of every table of the catalog are whole where the catalog and the tiers have
-- them, at every moment of every move, open, crash and reopen.
theorem live_tables_intact {s₀ : State R B} (h₀ : s₀.AtRest) (hf : ∀ t ∈ s₀.catalog, s₀.Intact place t)
    (h : Reachable s₀ (ApartStep place) s) : ∀ t ∈ s.catalog, s.Intact place t := by
  have hk : s.Named ∧ s.Waits place ∧ s.Kept place := by
    refine h.invariant (I := fun s => s.Named ∧ s.Waits place ∧ s.Kept place) ⟨.atRest h₀, .atRest h₀, .atRest h₀ hf⟩
      fun s s' hst hi => ?_
    obtain ⟨e, he, hc, ha, rfl⟩ := hst
    obtain ⟨hn, hw, hk⟩ := hi
    exact ⟨hn.exec he hc, hw.exec hn he hc, hk.exec hn hw he ha⟩
  exact hk.right.right.intact

section Examples

-- Moved to a tier and back, with a crash before each move's source is deleted, and the sweeps behind.
def crashedMoves : List (Event (Backend × String) Nat) :=
  [.open disks, .opened] ++ moveEvents table (some "hdd") ++
    [.crash, .open disks, .sweep "a" none 1 .klog, .sweep "a" none 1 .vlog, .opened] ++
    moveEvents (onTier (some "hdd") table) none ++ [.crash, .open disks, .sweep "a" (some "hdd") 1 .klog]

theorem live_tables_intact_crashedMoves :
    (runOf false crashedMoves).catalog = [table] ∧ (runOf false crashedMoves).files.lookup (klogAt "hdd") = none ∧
    (runOf false crashedMoves).Intact spelled table := by
  have h : Reachable (atRest false) (ApartStep spelled) (runOf false crashedMoves) :=
    Reachable.start.foldl (P := fun s e => s.Enabled spelled e ∧ s.Clear spelled e ∧ s.Apart spelled e)
      (fun _ e he => ⟨e, he.left, he.right.left, he.right.right, rfl⟩) (by decide +kernel)
  have hc : (runOf false crashedMoves).catalog = [table] := by decide +kernel
  have hi : ∀ t ∈ (atRest false).catalog, (atRest false).Intact spelled t := by
    intro t ht ext b hb
    cases mem_singleton.mp ht
    cases ext <;> cases hb <;> decide +kernel
  refine ⟨hc, by decide +kernel, live_tables_intact (atRest_atRest false) hi h table ?_⟩
  rw [hc]
  exact mem_singleton.mpr rfl

def oneRoot : Tiers := ⟨"db", [⟨"hdd", "hdd", false, .disk⟩, ⟨"nfs", "hdd", false, .disk⟩]⟩

def dbRoot : Tiers := ⟨"db", [⟨"hdd", "db", false, .disk⟩]⟩

-- The sweep under the second name deletes the klog of a table that is on the first.
def sweptByAlias : List (Event (Backend × String) Nat) :=
  [.open oneRoot, .opened] ++ moveEvents table (some "hdd") ++ [.crash, .open oneRoot, .sweep "a" (some "nfs") 1 .klog]

-- The first step of a move truncates its own source.
def movedOntoItself : List (Event (Backend × String) Nat) :=
  [.open dbRoot, .opened, .moveStart [table] (some "hdd"), .copyStart ⟨[table], some "hdd", []⟩ table .klog]

theorem live_table_swept_and_truncated :
    Allowed (exec spelled) (Enabled spelled) (atRest false) sweptByAlias ∧
    (runOf false sweptByAlias).catalog = [onTier (some "hdd") table] ∧
    (runOf false sweptByAlias).files.lookup ((runOf false sweptByAlias).tiers.pathFor spelled
      (onTier (some "hdd") table) .klog) = none ∧
    Allowed (exec spelled) (Enabled spelled) (atRest false) movedOntoItself ∧
    (runOf false movedOntoItself).catalog = [table] ∧
    (runOf false movedOntoItself).files.lookup (klogAt "db") = some none := by
  decide +kernel

end Examples

end OndaDb.Parts.State

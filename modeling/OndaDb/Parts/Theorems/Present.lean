import OndaDb.Parts.Pause
import OndaDb.Parts.Theorems.Deletion

namespace OndaDb.Parts.State

open List

variable {R B : Type} {place : Backend → String → R} {s s' : State R B}

theorem Named.eq_of_id (h : s.Named) (ht : t ∈ s.catalog ++ s.staged) (ht' : t' ∈ s.catalog ++ s.staged)
    (hid : t.id = t'.id) : t = t' := by
  rcases mem_append.mp ht with ht | ht <;> rcases mem_append.mp ht' with ht' | ht'
  · exact h.distinct t ht t' ht' hid
  · exact absurd hid (h.unlisted t' ht' t ht)
  · exact absurd hid.symm (h.unlisted t ht t' ht')
  · exact (h.single t ht t' ht' hid.symm).symm

-- A step that takes tables away, from the catalog or from what is staged, and the moves of those tables.
structure Fewer (s s' : State R B) : Prop where
  catalog : ∀ t ∈ s'.catalog, t ∈ s.catalog
  staged : ∀ t ∈ s'.staged, t ∈ s.staged
  moves : s'.moves.Sublist s.moves
  moving : ∀ m ∈ s'.moves, ∀ t ∈ m.tables, t ∈ s'.catalog
  tiers : s'.tiers = s.tiers
  phase : s'.phase = s.phase
  nonce : s'.nonce = s.nonce
  nextFileId : s'.nextFileId = s.nextFileId
  running : s.phase = .running
  waiting : ∀ l ∈ s'.waiting, l ∈ s.waiting ∨
    ∃ t ∈ s.catalog ++ s.staged, t ∉ s'.catalog ++ s'.staged ∧ ∃ ext, l.name = .table t.id ext

namespace Fewer

theorem mem (h : Fewer s s') (ht : t ∈ s'.catalog ++ s'.staged) : t ∈ s.catalog ++ s.staged := by
  rcases mem_append.mp ht with ht | ht
  · exact mem_append_left _ (h.catalog t ht)
  · exact mem_append_right _ (h.staged t ht)

theorem id_ne (h : Fewer s s') (hn : s.Named) (ht : t ∈ s.catalog ++ s.staged) (hgone : t ∉ s'.catalog ++ s'.staged)
    (ht' : t' ∈ s'.catalog ++ s'.staged) : t'.id ≠ t.id :=
  fun hid => hgone (hn.eq_of_id (h.mem ht') ht hid ▸ ht')

theorem locsOf (h : Fewer s s') (t : Table B) : s'.locsOf place t = s.locsOf place t := by
  unfold State.locsOf
  rw [h.tiers]

theorem destOf (h : Fewer s s') (m : Move B) (t : Table B) (ext : Ext) :
    s'.destOf place m t ext = s.destOf place m t ext := by
  unfold State.destOf relocated
  rw [h.tiers, h.nonce]

theorem named (h : Fewer s s') (hn : s.Named) : s'.Named where
  distinct := fun t ht t' ht' => hn.distinct t (h.catalog t ht) t' (h.catalog t' ht')
  unlisted := fun t ht t' ht' => hn.unlisted t (h.staged t ht) t' (h.catalog t' ht')
  single := fun t ht t' ht' => hn.single t (h.staged t ht) t' (h.staged t' ht')
  fresh := by
    rw [h.nextFileId]
    exact ⟨fun t ht => hn.fresh.left t (h.catalog t ht), fun t ht => hn.fresh.right t (h.staged t ht)⟩
  plain := fun t ht => hn.plain t (h.staged t ht)
  shared := by
    rw [h.tiers, h.phase]
    exact fun hne t ht => hn.shared hne t (h.catalog t ht)
  moving := by
    intro m hm
    obtain ⟨hne, hall⟩ := hn.moving m (h.moves.subset hm)
    rw [h.tiers]
    exact ⟨hne, fun t ht => ⟨h.moving m hm t ht, (hall t ht).right⟩⟩
  disjoint := hn.disjoint.sublist h.moves
  idle := fun hne => absurd (h.phase.trans h.running) hne

theorem waits (h : Fewer s s') (hn : s.Named) (hw : s.Waits place) : s'.Waits place := by
  have hid {t t' : Table B} (ht : t ∈ s.catalog ++ s.staged) (hgone : t ∉ s'.catalog ++ s'.staged)
      (ht' : t' ∈ s'.catalog) : t'.id ≠ t.id :=
    h.id_ne hn ht hgone (mem_append_left _ ht')
  constructor
  case named =>
    intro l hl
    rw [h.nextFileId]
    rcases h.waiting l hl with hl | ⟨t, ht, hgone, ext, hname⟩
    · obtain ⟨i, ext, hname, hlt, hst⟩ := hw.named l hl
      exact ⟨i, ext, hname, hlt, fun t ht => hst t (h.staged t ht)⟩
    · refine ⟨t.id, ext, hname, ?_, fun t' ht' => h.id_ne hn ht hgone (mem_append_right _ ht')⟩
      rcases mem_append.mp ht with ht | ht
      · exact hn.fresh.left t ht
      · exact hn.fresh.right t ht
  case dead =>
    intro l hl t' ht' hin
    rw [h.locsOf] at hin
    rcases h.waiting l hl with hl | ⟨t, ht, hgone, ext, hname⟩
    · exact hw.dead l hl t' (h.catalog t' ht') hin
    · exact hid ht hgone ht' (id_eq_of_mem_locsOf hin hname)
  case awake =>
    intro m hm t' ht' ext hl
    rw [h.destOf] at hl
    rcases h.waiting _ hl with hl | ⟨t, ht, hgone, ext, hname⟩
    · exact hw.awake m (h.moves.subset hm) t' ht' _ hl
    · exact hid ht hgone (h.moving m hm t' ht') (id_eq_of_destOf_name hname)
  case free =>
    intro m hm t ht ext t' ht'
    rw [h.destOf, h.locsOf]
    exact hw.free m (h.moves.subset hm) t ht ext t' (h.catalog t' ht')

end Fewer

end OndaDb.Parts.State

namespace OndaDb.Parts.Pause.State

open Parts.State

variable {R B : Type} {place : Backend → String → R}

section

variable {s : Parts.State R B}

theorem fewer_detached [DecidableEq B] (hr : s.phase = .running) (hn : s.Named) (hm : ∀ t ∈ tables, ∀ m ∈ s.moves, t ∉ m.tables) :
    Fewer s (detached s tables) where
  catalog := fun _ ht => (List.mem_filter.mp ht).left
  staged := fun _ => id
  moves := .refl _
  moving := fun m hmm t ht =>
    List.mem_filter.mpr ⟨((hn.moving m hmm).right t ht).left, decide_eq_true fun hin => hm t hin m hmm ht⟩
  tiers := rfl
  phase := rfl
  nonce := rfl
  nextFileId := rfl
  running := hr
  waiting := fun _ => .inl

theorem mem_dropped [DecidableEq R] : t ∈ (dropped place s cf).catalog ++ (dropped place s cf).staged ↔
    t ∈ s.catalog ++ s.staged ∧ t.cf ≠ cf := by
  simp only [dropped, List.mem_append, List.mem_filter, decide_eq_true_eq]
  tauto

theorem fewer_dropped [DecidableEq R] (hr : s.phase = .running) (hn : s.Named) : Fewer s (dropped place s cf) where
  catalog := fun _ ht => (List.mem_filter.mp ht).left
  staged := fun _ ht => (List.mem_filter.mp ht).left
  moves := List.filter_sublist
  moving := by
    intro m hm t ht
    obtain ⟨hm, hof⟩ := List.mem_filter.mp hm
    refine List.mem_filter.mpr ⟨((hn.moving m hm).right t ht).left, decide_eq_true fun hcf => ?_⟩
    rw [isOf, Bool.not_eq_true', List.any_eq_false] at hof
    exact hof t ht (decide_eq_true hcf)
  tiers := rfl
  phase := rfl
  nonce := rfl
  nextFileId := rfl
  running := hr
  waiting := by
    intro l hl
    simp only [dropped, mem_waiting, List.mem_append, List.mem_flatMap, List.mem_filter] at hl
    have hgone {t : Table B} (ht : t ∈ s.catalog ++ s.staged) (hcf : t.cf = cf) (hobj : t.object = none)
        (hl : ∃ ext, l = s.tiers.pathFor place t ext) : l ∈ s.waiting ∨ ∃ t ∈ s.catalog ++ s.staged,
          t ∉ (dropped place s cf).catalog ++ (dropped place s cf).staged ∧ ∃ ext, l.name = .table t.id ext := by
      obtain ⟨ext, rfl⟩ := hl
      refine .inr ⟨t, ht, fun hin => (mem_dropped.mp hin).right hcf, ext, ?_⟩
      rw [Tiers.pathFor_of_object_eq_none hobj]
    rw [mem_waiting]
    rcases hl with ((hl | ⟨t, ⟨ht, hcf⟩, hl⟩) | ⟨t, ⟨ht, hcf⟩, hl⟩) | hl
    · exact .inl (.inl hl)
    · obtain ⟨hns, hl⟩ := Waits.mem_tableFiles hl
      rw [← mem_waiting]
      refine hgone (List.mem_append_left _ ht) (of_decide_eq_true hcf).left ?_ hl
      by_contra ho
      exact hns (hn.shared (by rw [hr]; exact Phase.noConfusion) t ht (Option.isSome_iff_ne_none.mpr ho))
    · obtain ⟨ext, _, rfl⟩ := List.mem_map.mp hl
      rw [← mem_waiting]
      exact hgone (List.mem_append_right _ ht) (of_decide_eq_true hcf) (hn.plain t ht) ⟨ext, rfl⟩
    · exact .inl (.inr hl)

def Held (place : Backend → String → R) (s : Parts.State R B) (l : Loc R) : Prop :=
  (∃ t ∈ s.catalog ++ s.staged, l ∈ s.locsOf place t) ∨ ∃ m ∈ s.moves, ∃ t ∈ m.tables, ∃ ext, l = s.destOf place m t ext

structure Present [DecidableEq R] (place : Backend → String → R) (s : Parts.State R B) : Prop where
  tables : ∀ t ∈ s.catalog ++ s.staged, ∀ l ∈ s.locsOf place t, (s.files.lookup l).isSome
  copied : ∀ m ∈ s.moves, ∀ t ∈ m.tables, ∀ ext, (t.id, ext) ∈ m.copied → (s.files.lookup (s.destOf place m t ext)).isSome

theorem not_held_of_name (hn : s.Named) (hname : l.name = .table i ext)
    (hid : ∀ t ∈ s.catalog ++ s.staged, t.id ≠ i) : ¬Held place s l := by
  rintro (⟨t, ht, hl⟩ | ⟨m, hm, t, ht, ext, rfl⟩)
  · exact hid t ht (id_eq_of_mem_locsOf hl hname)
  · exact hid t (List.mem_append_left _ ((hn.moving m hm).right t ht).left) (id_eq_of_destOf_name hname)

theorem not_held_of_waiting (hw : s.Waits place) (hl : l ∈ s.waiting) : ¬Held place s l := by
  rintro (⟨t, ht, hin⟩ | ⟨m, hm, t, ht, ext, rfl⟩)
  · rcases List.mem_append.mp ht with ht | ht
    · exact hw.dead l hl t ht hin
    · obtain ⟨i, ext, hname, _, hst⟩ := hw.named l hl
      exact hst t ht (id_eq_of_mem_locsOf hin hname)
  · exact hw.awake m hm t ht ext hl

namespace Present

variable [DecidableEq R] {s' : Parts.State R B}

theorem of_sub (h : Present place s) (htiers : s'.tiers = s.tiers) (hnonce : s'.nonce = s.nonce)
    (ht : ∀ t ∈ s'.catalog ++ s'.staged, t ∈ s.catalog ++ s.staged) (hm : ∀ m ∈ s'.moves, m ∈ s.moves)
    (hf : ∀ l, Held place s l → (s.files.lookup l).isSome → (s'.files.lookup l).isSome) : Present place s' where
  tables := by
    intro t hin l hl
    unfold locsOf at hl
    rw [htiers] at hl
    exact hf l (.inl ⟨t, ht t hin, hl⟩) (h.tables t (ht t hin) l hl)
  copied := by
    intro m hin t htm ext hc
    unfold destOf relocated
    rw [htiers, hnonce]
    exact hf _ (.inr ⟨m, hm m hin, t, htm, ext, rfl⟩) (h.copied m (hm m hin) t htm ext hc)

theorem of_fewer (h : Present place s) (hs : Fewer s s') (hf : s'.files = s.files) : Present place s' :=
  h.of_sub hs.tiers hs.nonce (fun _ => hs.mem) (fun _ hm => hs.moves.subset hm) (fun _ _ => hf ▸ id)

theorem of_quiet (h : Present place s) (hq : Quiet s s')
    (hf : ∀ l, Held place s l → (s.files.lookup l).isSome → (s'.files.lookup l).isSome) : Present place s' := by
  refine h.of_sub hq.tiers hq.nonce ?_ ?_ hf
  · rw [hq.catalog, hq.staged]
    exact fun _ => id
  · rw [hq.moves]
    exact fun _ => id

theorem isSome_insert {files : Map (Loc R) (Option B)} (h : (files.lookup l).isSome) :
    ((files.insert l' c).lookup l).isSome := by
  rw [Map.lookup_insert_eq]
  split
  · rfl
  · exact h

theorem isSome_insert_self {files : Map (Loc R) (Option B)} : ((files.insert l c).lookup l).isSome := by
  rw [Map.lookup_insert_eq, if_pos rfl]
  rfl

theorem isSome_erase {files : Map (Loc R) (Option B)} (h : (files.lookup l).isSome) (hne : l ≠ l') :
    ((files.erase l').lookup l).isSome := by
  rw [Map.lookup_erase_eq, if_neg hne]
  exact h

theorem remove (h : Present place s) (hw : s.Waits place) (hl : l ∈ s.waiting) (hq : Quiet s s')
    (hf : s'.files = s.files.erase l) : Present place s' := by
  refine h.of_quiet hq fun l' hheld hs => ?_
  rw [hf]
  refine isSome_erase hs ?_
  rintro rfl
  exact not_held_of_waiting hw hl hheld

variable [DecidableEq B]

theorem stage (h : Present place s) : Present place (s.exec place (.stage cf klog vlog)) := by
  have hold {l : Loc R} (hl : (s.files.lookup l).isSome) :
      ((s.exec place (.stage cf klog vlog)).files.lookup l).isSome := by
    cases vlog
    case none => exact isSome_insert hl
    case some b => exact isSome_insert (isSome_insert hl)
  constructor
  case tables =>
    intro t ht l hl
    rcases List.mem_append.mp ht with ht | ht
    · exact hold (h.tables t (List.mem_append_left _ ht) l hl)
    rcases List.mem_cons.mp ht with rfl | ht
    · obtain ⟨ext, hsome, rfl⟩ := mem_locsOf.mp hl
      cases vlog <;> cases ext
      case none.klog => exact isSome_insert_self
      case none.vlog => cases hsome
      case some.klog => exact isSome_insert isSome_insert_self
      case some.vlog => exact isSome_insert_self
    · exact hold (h.tables t (List.mem_append_right _ ht) l hl)
  case copied => exact fun m hm t ht ext hin => hold (h.copied m hm t ht ext hin)

theorem mem_edit (he : s.Enabled place (.edit adds drops))
    (ht : t ∈ (s.exec place (.edit adds drops)).catalog ++ (s.exec place (.edit adds drops)).staged) :
    t ∈ s.catalog ++ s.staged := by
  rcases List.mem_append.mp ht with ht | ht
  · rcases List.mem_append.mp ht with ht | ht
    · exact List.mem_append_left _ (List.mem_filter.mp ht).left
    · exact List.mem_append_right _ (he.right.left t ht)
  · exact List.mem_append_right _ (List.mem_filter.mp ht).left

theorem mem_abandon (ht : t ∈ (s.exec place (.abandon t')).catalog ++ (s.exec place (.abandon t')).staged) :
    t ∈ s.catalog ++ s.staged := by
  rcases List.mem_append.mp ht with ht | ht
  · exact List.mem_append_left _ ht
  · exact List.mem_append_right _ (List.mem_filter.mp ht).left

theorem copyEnd (h : Present place s) (hn : s.Named) (he : s.Enabled place (.copyEnd m t ext)) :
    Present place (s.exec place (.copyEnd m t ext)) := by
  obtain ⟨hm, ht, _⟩ := he
  constructor
  case tables => exact fun t ht l hl => isSome_insert (h.tables t ht l hl)
  case copied =>
    intro m' hm' t' ht' ext' hin
    rcases List.mem_cons.mp hm' with rfl | hm'
    · rcases List.mem_cons.mp hin with he | hin
      · obtain ⟨hid, rfl⟩ := Prod.mk.inj he
        cases hn.distinct t' ((hn.moving m hm).right t' ht').left t ((hn.moving m hm).right t ht).left hid
        exact isSome_insert_self
      · exact isSome_insert (h.copied m hm t' ht' ext' hin)
    · exact isSome_insert (h.copied m' (List.mem_of_mem_erase hm') t' ht' ext' hin)

omit [DecidableEq B] in
theorem mem_copiesOf (h : Present place s) (hc : t ∈ s.catalog) (hsome : (t.content ext).isSome) :
    ext ∈ s.copiesOf place t := by
  cases ext
  case klog => exact List.mem_cons_self
  case vlog =>
    refine List.mem_cons_of_mem _ ?_
    rw [if_pos, List.mem_singleton]
    unfold sourceHasVlog
    split
    · exact h.tables t (List.mem_append_left _ hc) _ (mem_locsOf.mpr ⟨.vlog, hsome, rfl⟩)
    · exact hsome

theorem flip (h : Present place s) (he : s.Enabled place (.flip m)) :
    Present place (s.exec place (.flip m)) := by
  obtain ⟨hm, hcopied⟩ := he
  constructor
  case tables =>
    intro t ht l hl
    rcases List.mem_append.mp ht with ht | ht
    · obtain ⟨t₀, hc, ⟨hin, rfl⟩ | ⟨_, rfl⟩⟩ := Named.exists_of_mem_flip ht
      · obtain ⟨ext, hsome, rfl⟩ := mem_locsOf.mp hl
        exact h.copied m hm t₀ hin ext (hcopied t₀ hin ext (h.mem_copiesOf hc hsome))
      · exact h.tables t (List.mem_append_left _ hc) l hl
    · exact h.tables t (List.mem_append_right _ ht) l hl
  case copied => exact fun m' hm' => h.copied m' (List.mem_of_mem_erase hm')

theorem dispatch (h : Present place s) (hw : s.Waits place) (he : l ∈ s.dispatched) :
    Present place (s.exec place (.dispatch l)) := by
  have hq : Quiet s (s.exec place (.dispatch l)) := .dispatch he
  by_cases hp : s.paced
  · refine h.of_quiet hq fun l _ hs => ?_
    simp only [Parts.State.exec, if_pos hp]
    exact hs
  · refine h.remove hw (mem_waiting.mpr (.inr (.inr (.inl he)))) hq ?_
    simp only [Parts.State.exec, if_neg hp, Parts.State.remove]

theorem work (h : Present place s) (hw : s.Waits place) : Present place (s.exec place .work) := by
  have hq : Quiet s (s.exec place .work) := .work
  cases hqueue : s.queue
  case nil => exact h.of_quiet hq (by simp [Parts.State.exec, hqueue])
  case cons l rest =>
    have hl : l ∈ s.queue := hqueue ▸ List.mem_cons_self
    refine h.remove hw (mem_waiting.mpr (.inr (.inr (.inr hl)))) hq ?_
    simp only [Parts.State.exec, hqueue, Parts.State.remove]

theorem exec {e : Parts.Event R B} (h : Present place s) (hn : s.Named) (hw : s.Waits place) (he : s.Enabled place e)
    (hr : isRunning e) : Present place (s.exec place e) := by
  cases e
  case stage => exact h.stage
  case abandon => exact h.of_sub rfl rfl (fun _ => mem_abandon) (fun _ => id) (fun _ _ => id)
  case edit => exact h.of_sub rfl rfl (fun _ => mem_edit he) (fun _ => id) (fun _ _ => id)
  case moveStart => exact ⟨h.tables, List.forall_mem_cons.mpr ⟨fun _ _ _ hin => absurd hin List.not_mem_nil, h.copied⟩⟩
  case copyEnd => exact h.copyEnd hn he
  case moveFail => exact h.of_sub rfl rfl (fun _ => id) (fun _ => List.mem_of_mem_erase) (fun _ _ => id)
  case flip => exact h.flip he
  case dispatch => exact h.dispatch hw he
  case work => exact h.work hw
  case copyStart =>
    refine h.of_quiet .copyStart fun l _ hs => ?_
    simp only [Parts.State.exec]
    split
    · exact isSome_insert hs
    · exact hs
  case retire =>
    refine h.of_quiet (.retire he) fun l _ hs => ?_
    simp only [Parts.State.exec]
    split <;> exact hs
  case pause => exact h.of_quiet .pause fun _ _ => id
  case resume =>
    refine h.of_quiet .resume fun l _ hs => ?_
    simp only [Parts.State.exec]
    split <;> exact hs
  all_goals cases hr

end Present

end

end OndaDb.Parts.Pause.State

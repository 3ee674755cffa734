import OndaDb.Parts.Theorems.Present

namespace OndaDb.Parts.Pause.State

open Parts.State List

variable {R B : Type} [DecidableEq R] [DecidableEq B] {place : Backend → String → R} {below : String → Loc R → Bool}
variable {s s' : State R B}

omit [DecidableEq R] [DecidableEq B] in
theorem mem_destsOf {s : Parts.State R B} {m : Move B} (ht : t ∈ m.tables) : s.destOf place m t ext ∈ destsOf place s m :=
  mem_flatMap.mpr ⟨t, ht, mem_map.mpr ⟨ext, by cases ext <;> simp, rfl⟩⟩

omit [DecidableEq R] [DecidableEq B] in
theorem Held.of_sub {s s' : Parts.State R B} (h : Held place s' l) (htiers : s'.tiers = s.tiers)
    (hnonce : s'.nonce = s.nonce) (ht : ∀ t ∈ s'.catalog ++ s'.staged, t ∈ s.catalog ++ s.staged)
    (hm : ∀ m ∈ s'.moves, m ∈ s.moves) : Held place s l := by
  rcases h with ⟨t, hin, hl⟩ | ⟨m, hin, t, htm, ext, rfl⟩
  · unfold locsOf at hl
    rw [htiers] at hl
    exact .inl ⟨t, ht t hin, hl⟩
  · unfold destOf relocated
    rw [htiers, hnonce]
    exact .inr ⟨m, hm m hin, t, htm, ext, rfl⟩

omit [DecidableEq R] [DecidableEq B] in
theorem Held.of_quiet {s s' : Parts.State R B} (hq : Quiet s s') (h : Held place s' l) : Held place s l := by
  refine h.of_sub hq.tiers hq.nonce ?_ ?_
  · rw [hq.catalog, hq.staged]
    exact fun _ => id
  · rw [hq.moves]
    exact fun _ => id

theorem Held.stage {s : Parts.State R B} (h : Held place (s.exec place (.stage cf klog vlog)) l) :
    Held place s l ∨ l ∈ newPaths place s (.stage cf klog vlog) := by
  rcases h with ⟨t, ht, hl⟩ | hm
  · rcases mem_append.mp ht with ht | ht
    · exact .inl (.inl ⟨t, mem_append_left _ ht, hl⟩)
    rcases mem_cons.mp ht with rfl | ht
    · obtain ⟨ext, _, rfl⟩ := mem_locsOf.mp hl
      exact .inr (mem_map.mpr ⟨ext, by cases ext <;> simp, rfl⟩)
    · exact .inl (.inl ⟨t, mem_append_right _ ht, hl⟩)
  · exact .inl (.inr hm)

theorem Held.moveStart {s : Parts.State R B} (h : Held place (s.exec place (.moveStart tables target)) l) :
    Held place s l ∨ l ∈ newPaths place s (.moveStart tables target) := by
  rcases h with ht | ⟨m, hm, t, ht, ext, rfl⟩
  · exact .inl (.inl ht)
  · rcases mem_cons.mp hm with rfl | hm
    · exact .inr (mem_destsOf ht)
    · exact .inl (.inr ⟨m, hm, t, ht, ext, rfl⟩)

theorem Held.copyEnd {s : Parts.State R B} (hm : m ∈ s.moves) (h : Held place (s.exec place (.copyEnd m t ext)) l) :
    Held place s l := by
  rcases h with ht | ⟨m', hm', t', ht', ext', rfl⟩
  · exact .inl ht
  · rcases mem_cons.mp hm' with rfl | hm'
    · exact .inr ⟨m, hm, t', ht', ext', rfl⟩
    · exact .inr ⟨m', mem_of_mem_erase hm', t', ht', ext', rfl⟩

theorem Held.flip {s : Parts.State R B} (hm : m ∈ s.moves) (h : Held place (s.exec place (.flip m)) l) :
    Held place s l := by
  rcases h with ⟨t, ht, hl⟩ | ⟨m', hm', t', ht', ext', rfl⟩
  · rcases mem_append.mp ht with ht | ht
    · obtain ⟨t₀, hc, ⟨hin, rfl⟩ | ⟨_, rfl⟩⟩ := Named.exists_of_mem_flip ht
      · obtain ⟨ext, _, rfl⟩ := mem_locsOf.mp hl
        exact .inr ⟨m, hm, t₀, hin, ext, rfl⟩
      · exact .inl ⟨t, mem_append_left _ hc, hl⟩
    · exact .inl ⟨t, mem_append_right _ ht, hl⟩
  · exact .inr ⟨m', mem_of_mem_erase hm', t', ht', ext', rfl⟩

theorem Held.exec {s : Parts.State R B} {e : Parts.Event R B} (he : s.Enabled place e) (hr : isRunning e)
    (h : Held place (s.exec place e) l) : Held place s l ∨ l ∈ newPaths place s e := by
  cases e
  case stage => exact h.stage
  case abandon => exact .inl (h.of_sub rfl rfl (fun _ => Present.mem_abandon) (fun _ => id))
  case edit => exact .inl (h.of_sub rfl rfl (fun _ => Present.mem_edit he) (fun _ => id))
  case moveStart => exact h.moveStart
  case copyEnd => exact .inl (h.copyEnd he.left)
  case moveFail => exact .inl (h.of_sub rfl rfl (fun _ => id) (fun _ => mem_of_mem_erase))
  case flip => exact .inl (h.flip he.left)
  case copyStart => exact .inl (h.of_quiet .copyStart)
  case retire => exact .inl (h.of_quiet (.retire he))
  case pause => exact .inl (h.of_quiet .pause)
  case resume => exact .inl (h.of_quiet .resume)
  case dispatch => exact .inl (h.of_quiet (.dispatch he))
  case work => exact .inl (h.of_quiet .work)
  all_goals cases hr

theorem ids_exec {s : Parts.State R B} {e : Parts.Event R B} (he : s.Enabled place e) (hr : isRunning e)
    (ht : t ∈ (s.exec place e).catalog ++ (s.exec place e).staged) :
    (∃ t' ∈ s.catalog ++ s.staged, t'.id = t.id) ∨ s.nextFileId ≤ t.id := by
  have hquiet {s' : Parts.State R B} (hq : Quiet s s') (ht : t ∈ s'.catalog ++ s'.staged) :
      (∃ t' ∈ s.catalog ++ s.staged, t'.id = t.id) ∨ s.nextFileId ≤ t.id := by
    rw [hq.catalog, hq.staged] at ht
    exact .inl ⟨t, ht, rfl⟩
  cases e
  case stage =>
    rcases mem_append.mp ht with ht | ht
    · exact .inl ⟨t, mem_append_left _ ht, rfl⟩
    rcases mem_cons.mp ht with rfl | ht
    · exact .inr (Nat.le_refl _)
    · exact .inl ⟨t, mem_append_right _ ht, rfl⟩
  case flip =>
    rcases mem_append.mp ht with ht | ht
    · obtain ⟨t₀, hc, ⟨_, rfl⟩ | ⟨_, rfl⟩⟩ := Named.exists_of_mem_flip ht
      · exact .inl ⟨t₀, mem_append_left _ hc, rfl⟩
      · exact .inl ⟨t, mem_append_left _ hc, rfl⟩
    · exact .inl ⟨t, mem_append_right _ ht, rfl⟩
  case abandon => exact .inl ⟨t, Present.mem_abandon ht, rfl⟩
  case edit => exact .inl ⟨t, Present.mem_edit he ht, rfl⟩
  case moveStart => exact .inl ⟨t, ht, rfl⟩
  case copyEnd => exact .inl ⟨t, ht, rfl⟩
  case moveFail => exact .inl ⟨t, ht, rfl⟩
  case copyStart => exact hquiet .copyStart ht
  case retire => exact hquiet (.retire he) ht
  case pause => exact hquiet .pause ht
  case resume => exact hquiet .resume ht
  case dispatch => exact hquiet (.dispatch he) ht
  case work => exact hquiet .work ht
  all_goals cases hr

theorem phase_exec {s : Parts.State R B} {e : Parts.Event R B} (place : Backend → String → R) (h : s.phase = .running) (hr : isRunning e) :
    (s.exec place e).phase = .running ∧ s.nextFileId ≤ (s.exec place e).nextFileId := by
  cases e
  case stage => exact ⟨h, Nat.le_succ _⟩
  case copyStart | retire | resume | dispatch | work =>
    simp only [Parts.State.exec]
    split <;> exact ⟨h, Nat.le_refl _⟩
  case crash | «open» | sweep | opened => cases hr
  all_goals exact ⟨h, Nat.le_refl _⟩

omit [DecidableEq B] in
theorem isSome_retain {files : Map (Loc R) (Option B)} (hb : below cf l = false) (h : (files.lookup l).isSome) :
    ((files.retain fun l _ => !below cf l).lookup l).isSome := by
  obtain ⟨c, hc⟩ := Option.isSome_iff_exists.mp h
  rw [Map.lookup_retain, hc, Option.filter_some, hb]
  rfl

structure Sound (place : Backend → String → R) (below : String → Loc R → Bool) (s : State R B) : Prop where
  running : s.db.phase = .running
  named : s.db.Named
  waits : s.db.Waits place
  present : Present place s.db
  gone : ∀ l ∈ s.toRename, ∃ id ext, l.name = .table id ext ∧ id < s.db.nextFileId ∧
    ∀ t ∈ s.db.catalog ++ s.db.staged, t.id ≠ id
  spared : ∀ l, Held place s.db l → s.Spared below l

namespace Sound

omit [DecidableEq B] in
theorem opened (h : s.Opened place) : s.Sound place below where
  running := h.phase
  named := {
    distinct := h.distinct
    unlisted := by simp [h.staged]
    single := by simp [h.staged]
    fresh := ⟨h.fresh, by simp [h.staged]⟩
    plain := by simp [h.staged]
    shared := fun _ => h.shared
    moving := by simp [h.moves]
    disjoint := h.moves ▸ .nil
    idle := fun hne => absurd h.phase hne }
  waits := by constructor <;> simp [h.waiting, h.moves]
  present := by
    refine ⟨fun t ht l hl => ?_, by simp [h.moves]⟩
    rw [h.staged, append_nil] at ht
    exact h.found l ⟨t, ht, hl⟩
  gone := by simp [h.idle.left]
  spared := by simp [Spared, h.idle.right.left]

theorem db {e : Parts.Event R B} (h : s.Sound place below) (he : s.Enabled place (.db e))
    (ho : s.Orderly place below (.db e)) : (s.exec place below (.db e)).Sound place below := by
  obtain ⟨he, hr, _⟩ := he
  obtain ⟨hc, hnew⟩ := ho
  obtain ⟨hrun, hnext⟩ := phase_exec place h.running hr
  refine ⟨hrun, h.named.exec he hc, h.waits.exec h.named he hc, h.present.exec h.named h.waits he hr, ?_, ?_⟩
  case refine_1 =>
    intro l hl
    obtain ⟨i, ext, hname, hlt, hid⟩ := h.gone l hl
    refine ⟨i, ext, hname, hlt.trans_le hnext, fun t ht => ?_⟩
    rcases ids_exec he hr ht with ⟨t', ht', he⟩ | hle
    · exact he ▸ hid t' ht'
    · exact Nat.ne_of_gt (hlt.trans_le hle)
  case refine_2 =>
    intro l hl
    rcases hl.exec he hr with hl | hl
    · exact h.spared l hl
    · exact hnew l hl

omit [DecidableEq B] in
theorem of_fewer (h : s.Sound place below) (hs : Fewer s.db s'.db) (hf : s'.db.files = s.db.files)
    (hgone : ∀ l ∈ s'.toRename, l ∈ s.toRename ∨
      ∃ t ∈ s.db.catalog ++ s.db.staged, t ∉ s'.db.catalog ++ s'.db.staged ∧ ∃ ext, l.name = .table t.id ext)
    (hspared : ∀ l, Held place s'.db l → s'.Spared below l) : s'.Sound place below := by
  refine ⟨hs.phase.trans h.running, hs.named h.named, hs.waits h.named h.waits, h.present.of_fewer hs hf, ?_, hspared⟩
  intro l hl
  rw [hs.nextFileId]
  rcases hgone l hl with hl | ⟨t, ht, hnot, ext, hname⟩
  · obtain ⟨i, ext, hname, hlt, hid⟩ := h.gone l hl
    exact ⟨i, ext, hname, hlt, fun t ht => hid t (hs.mem ht)⟩
  · refine ⟨t.id, ext, hname, ?_, fun t' ht' => hs.id_ne h.named ht hnot ht'⟩
    rcases mem_append.mp ht with ht | ht
    · exact h.named.fresh.left t ht
    · exact h.named.fresh.right t ht

theorem detach (h : s.Sound place below) (he : s.Enabled place (.detach tables)) :
    (s.exec place below (.detach tables)).Sound place below := by
  have hs : Fewer s.db (detached s.db tables) :=
    fewer_detached h.running h.named fun t ht => (he t ht).right.right
  refine h.of_fewer hs rfl ?_ fun l hl => h.spared l (hl.of_sub rfl rfl (fun _ => hs.mem) fun _ => id)
  intro l hl
  refine (mem_append.mp hl).imp_right fun hl => ?_
  obtain ⟨t, ht, hl⟩ := mem_flatMap.mp hl
  obtain ⟨ext, _, rfl⟩ := mem_locsOf.mp hl
  obtain ⟨hc, hns, _⟩ := he t ht
  have hobj : t.object = none := by
    by_contra ho
    exact hns (h.named.shared (by rw [h.running]; exact Phase.noConfusion) t hc (Option.isSome_iff_ne_none.mpr ho))
  refine ⟨t, mem_append_left _ hc, fun hin => ?_, ext, by rw [Tiers.pathFor_of_object_eq_none hobj]⟩
  rcases mem_append.mp hin with hin | hin
  · exact of_decide_eq_true (mem_filter.mp hin).right ht
  · exact h.named.unlisted t hin t hc rfl

theorem drop (h : s.Sound place below) (ho : s.Orderly place below (.drop cf)) :
    (s.exec place below (.drop cf)).Sound place below := by
  obtain ⟨_, htables, hmoves⟩ := ho
  have hs : Fewer s.db (dropped place s.db cf) := fewer_dropped h.running h.named
  refine h.of_fewer hs rfl (fun _ => .inl) fun l hl => ?_
  have hold : s.Spared below l := h.spared l (hl.of_sub rfl rfl (fun _ => hs.mem) fun _ hm => hs.moves.subset hm)
  refine forall_mem_cons.mpr ⟨?_, hold⟩
  rcases hl with ⟨t, ht, hl⟩ | ⟨m, hm, t, ht, ext, rfl⟩
  · obtain ⟨ht, hcf⟩ := mem_dropped.mp ht
    exact htables t ht hcf l hl
  · obtain ⟨hm, hof⟩ := mem_filter.mp hm
    exact hmoves m hm (Bool.not_eq_true _ ▸ (Bool.not_eq_true' _).mp hof) _ (mem_destsOf ht)

omit [DecidableEq B] in
theorem of_files (h : s.Sound place below) {files : Map (Loc R) (Option B)}
    (hf : ∀ l, Held place s.db l → (s.db.files.lookup l).isSome → (files.lookup l).isSome) {toRename : List (Loc R)}
    (hr : ∀ l ∈ toRename, l ∈ s.toRename) {removing : List String} (hd : ∀ cf ∈ removing, cf ∈ s.removing) :
    Sound place below { s with db := { s.db with files }, toRename, removing } where
  __ := h
  named := { h.named with }
  waits := { h.waits with }
  present := h.present.of_sub rfl rfl (fun _ => id) (fun _ => id) hf
  gone := fun l hl => h.gone l (hr l hl)
  spared := fun l hl cf hcf => h.spared l hl cf (hd cf hcf)

theorem rename (h : s.Sound place below) (he : s.Enabled place (.rename src dst)) :
    (s.exec place below (.rename src dst)).Sound place below := by
  have hr {l : Loc R} (hl : l ∈ s.toRename.erase src) : l ∈ s.toRename := mem_of_mem_erase hl
  simp only [State.exec]
  split
  · exact h.of_files (fun _ _ => id) (fun _ => hr) (fun _ => id)
  · refine h.of_files (fun l hl hs => ?_) (fun _ => hr) (fun _ => id)
    refine Present.isSome_insert (Present.isSome_erase hs ?_)
    rintro rfl
    obtain ⟨i, ext, hname, _, hid⟩ := h.gone l he
    exact not_held_of_name h.named hname hid hl

theorem removeDirAll (h : s.Sound place below) (he : s.Enabled place (.removeDirAll cf)) :
    (s.exec place below (.removeDirAll cf)).Sound place below := by
  refine h.of_files (fun l hl hs => ?_) (fun _ => id) (fun _ => mem_of_mem_erase)
  exact isSome_retain (h.spared l hl cf he) hs

theorem staleCopy (h : s.Sound place below) : (s.exec place below (.staleCopy l)).Sound place below :=
  h.of_files (fun _ _ => Present.isSome_insert) (fun _ => id) (fun _ => id)

theorem exec (h : s.Sound place below) (he : s.Enabled place e) (ho : s.Orderly place below e) :
    (s.exec place below e).Sound place below := by
  cases e
  case db => exact h.db he ho
  case detach => exact h.detach he
  case rename => exact h.rename he
  case drop => exact h.drop ho
  case removeDirAll => exact h.removeDirAll he
  case staleCopy => exact h.staleCopy

end Sound

theorem sound_of_reachable (h₀ : s₀.Opened place) (h : Reachable s₀ (OrderlyStep place below) s) :
    s.Sound place below := by
  refine h.invariant (.opened h₀) fun s s' hst hi => ?_
  obtain ⟨e, he, ho, rfl⟩ := hst
  exact hi.exec he ho

-- The file is there, and nothing that is under way takes it away while the pause lasts.
structure Safe (below : String → Loc R → Bool) (s : State R B) (l : Loc R) : Prop where
  found : s.Exists l
  dispatched : l ∉ s.db.dispatched
  queue : l ∉ s.db.queue
  toRename : l ∉ s.toRename
  spared : s.Spared below l

omit [DecidableEq B] in
theorem Sound.safe (h : s.Sound place below) (hl : s.Names place l) : s.Safe below l := by
  obtain ⟨t, ht, hin⟩ := hl
  have hheld : Held place s.db l := .inl ⟨t, mem_append_left _ ht, hin⟩
  constructor
  case found => exact h.present.tables t (mem_append_left _ ht) l hin
  case dispatched => exact fun hd => h.waits.dead l (mem_waiting.mpr (.inr (.inr (.inl hd)))) t ht hin
  case queue => exact fun hq => h.waits.dead l (mem_waiting.mpr (.inr (.inr (.inr hq)))) t ht hin
  case toRename =>
    intro hr
    obtain ⟨i, ext, hname, _, hid⟩ := h.gone l hr
    exact not_held_of_name h.named hname hid hheld
  case spared => exact h.spared l hheld

namespace Safe

omit [DecidableEq B] in
theorem of_db (h : s.Safe below l) (hf : (s.db.files.lookup l).isSome → (d.files.lookup l).isSome)
    (hd : l ∉ s.db.dispatched → l ∉ d.dispatched) (hq : l ∉ s.db.queue → l ∉ d.queue) :
    Safe below { s with db := d } l :=
  ⟨hf h.found, hd h.dispatched, hq h.queue, h.toRename, h.spared⟩

theorem db (h : s.Safe below l) (hp : 0 < s.db.disabled) (he : s.db.Enabled place e) (hr : isRunning e)
    (hp' : 0 < (s.db.exec place e).disabled) : (s.exec place below (.db e)).Safe below l := by
  cases e
  case stage vlog =>
    refine h.of_db (fun hf => ?_) id id
    cases vlog
    case none => exact Present.isSome_insert hf
    case some b => exact Present.isSome_insert (Present.isSome_insert hf)
  case copyEnd => exact h.of_db Present.isSome_insert id id
  case copyStart m _ _ =>
    cases hst : s.db.tiers.storageFor m.target <;> simp only [State.exec, Parts.State.exec, hst]
    · exact h.of_db Present.isSome_insert id id
    · exact h
  case retire l' =>
    simp only [State.exec, Parts.State.exec, if_pos hp]
    exact h.of_db id id id
  case resume =>
    by_cases hz : s.db.disabled - 1 = 0
    · simp only [Parts.State.exec, if_pos hz] at hp'
      exact absurd hp' (Nat.lt_irrefl 0)
    · simp only [State.exec, Parts.State.exec, if_neg hz]
      exact h.of_db id id id
  case dispatch l' =>
    have hne : l ≠ l' := fun heq => h.dispatched (heq ▸ he)
    have hd : l ∉ s.db.dispatched → l ∉ s.db.dispatched.erase l' := mt mem_of_mem_erase
    by_cases hpaced : s.db.paced <;> simp only [State.exec, Parts.State.exec, hpaced, if_true, Bool.false_eq_true, if_false]
    · refine h.of_db id hd fun hq hin => ?_
      rcases mem_append.mp hin with hin | hin
      · exact hq hin
      · exact hne (mem_singleton.mp hin)
    · exact h.of_db (Present.isSome_erase · hne) hd id
  case work =>
    cases hqueue : s.db.queue <;> simp only [State.exec, Parts.State.exec, hqueue]
    case nil => exact h
    case cons l' rest =>
      have hnot : l ∉ l' :: rest := hqueue ▸ h.queue
      refine h.of_db (Present.isSome_erase · fun heq => hnot (heq ▸ mem_cons_self)) id fun _ hin => ?_
      exact hnot (mem_cons_of_mem _ hin)
  case crash | «open» | sweep | opened => cases hr
  all_goals exact h.of_db id id id

theorem exec {e : Event R B} (h : s.Safe below l) (hp : 0 < s.db.disabled) (he : s.Enabled place e)
    (ho : s.Orderly place below e) (hp' : 0 < (s.exec place below e).db.disabled) :
    (s.exec place below e).Safe below l := by
  cases e
  case db => exact h.db hp he.left he.right.left hp'
  case detach => exact absurd ho (Nat.ne_of_gt hp)
  case drop => exact absurd ho.left (Nat.ne_of_gt hp)
  case rename src _ =>
    have hr : l ∉ s.toRename.erase src := fun hr => h.toRename (mem_of_mem_erase hr)
    simp only [State.exec]
    split
    · exact ⟨h.found, h.dispatched, h.queue, hr, h.spared⟩
    · refine ⟨Present.isSome_insert (Present.isSome_erase h.found ?_), h.dispatched, h.queue, hr, h.spared⟩
      rintro rfl
      exact h.toRename he
  case removeDirAll cf =>
    exact ⟨isSome_retain (h.spared cf he) h.found, h.dispatched, h.queue, h.toRename,
      fun cf' hcf => h.spared cf' (mem_of_mem_erase hcf)⟩
  case staleCopy => exact ⟨Present.isSome_insert h.found, h.dispatched, h.queue, h.toRename, h.spared⟩

end Safe

-- A file that the catalog names while a pause is held is there until the last pause is released, in every run
-- whose steps are orderly.
theorem paused_files_stay {s₀ s s' : State R B} (h₀ : s₀.Opened place) (h : Reachable s₀ (OrderlyStep place below) s)
    (hp : 0 < s.db.disabled) (hl : s.Names place l) (hr : Reachable s (Paused (OrderlyStep place below)) s') :
    s'.Exists l := by
  have hi : 0 < s'.db.disabled ∧ s'.Safe below l := by
    refine hr.invariant (I := fun s => 0 < s.db.disabled ∧ s.Safe below l)
      ⟨hp, (sound_of_reachable h₀ h).safe hl⟩ fun s s' hst hi => ?_
    obtain ⟨⟨e, he, ho, rfl⟩, hp'⟩ := hst
    exact ⟨hp', hi.right.exec hi.left he ho hp'⟩
  exact hi.right.found

section Examples

def ownDir (cf : String) (l : Loc (Backend × String)) : Bool :=
  l.root = (.disk, "db") && l.dir = cfDirName cf

def twoFamilies : State (Backend × String) Nat where
  db := { atRest true with phase := .running, families := ["a", "b"] }
  toRename := []
  removing := []
  stale := []

theorem twoFamilies_opened : twoFamilies.Opened spelled where
  phase := rfl
  staged := rfl
  moves := rfl
  waiting := rfl
  disabled := rfl
  idle := ⟨rfl, rfl, rfl⟩
  distinct := by simp [twoFamilies, atRest]
  fresh := by simp [twoFamilies, atRest, table]
  shared := by simp [twoFamilies, atRest, table]
  found := by
    rintro l ⟨t, ht, hl⟩
    have hall : ∀ t ∈ twoFamilies.db.catalog, ∀ l ∈ twoFamilies.db.locsOf spelled t, twoFamilies.Exists l := by
      decide +kernel
    exact hall t ht l hl

-- A pause begins while a dropped family's directory is still to be removed.
def dropping : State (Backend × String) Nat :=
  [.drop "b", .db .pause].foldl (exec spelled ownDir) twoFamilies

-- Under a second pause a compaction replaces the table, the directory goes, and one pause is released.
def compacted : List (Event (Backend × String) Nat) :=
  [.db (.stage "a" 20 none), .db (.edit [⟨"a", 2, none, none, 20, none⟩] [table]), .db .pause, .db (.retire (klogAt "db")),
    .removeDirAll "b", .db .resume]

theorem paused_files_stay_compacted :
    dropping.Names spelled (klogAt "db") ∧ (compacted.foldl (exec spelled ownDir) dropping).Exists (klogAt "db") := by
  have hl : dropping.Names spelled (klogAt "db") := by decide +kernel
  have h : Reachable twoFamilies (OrderlyStep spelled ownDir) dropping :=
    Reachable.start.foldl (P := fun s e => s.Enabled spelled e ∧ s.Orderly spelled ownDir e)
      (fun _ e he => ⟨e, he.left, he.right, rfl⟩) (by decide +kernel)
  refine ⟨hl, paused_files_stay twoFamilies_opened h (by decide +kernel) hl ?_⟩
  exact Reachable.start.foldl
    (P := fun s e => (s.Enabled spelled e ∧ s.Orderly spelled ownDir e) ∧ 0 < (s.exec spelled ownDir e).db.disabled)
    (fun _ e he => ⟨⟨e, he.left.left, he.left.right, rfl⟩, he.right⟩) (by decide +kernel)

def underPause (es : List (Event (Backend × String) Nat)) : State (Backend × String) Nat :=
  (.db .pause :: es).foldl (exec spelled ownDir) twoFamilies

def dropEvents : List (Event (Backend × String) Nat) :=
  [.drop "a", .removeDirAll "a"]

def detachEvents : List (Event (Backend × String) Nat) :=
  [.detach [table], .rename (klogAt "db") (klogAt "db/detached")]

-- A family is dropped, and a part detached, while a checkpoint copies their files.
theorem paused_file_removed :
    (underPause []).Names spelled (klogAt "db") ∧
    Allowed (exec spelled ownDir) (Enabled spelled) twoFamilies (.db .pause :: dropEvents) ∧
    (underPause dropEvents).db.disabled = 1 ∧ ¬(underPause dropEvents).Exists (klogAt "db") ∧
    Allowed (exec spelled ownDir) (Enabled spelled) twoFamilies (.db .pause :: detachEvents) ∧
    (underPause detachEvents).db.disabled = 1 ∧ ¬(underPause detachEvents).Exists (klogAt "db") := by
  decide +kernel

end Examples

end OndaDb.Parts.Pause.State

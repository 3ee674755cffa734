import OndaDb.Upgrade.Theorems.Stages

namespace OndaDb.Upgrade

open Plan Fs

variable {path : String} {fs : Fs} {st : Stage} {n : Nat} {marker kept : Bool}

theorem safe_removeMarker (a : Name) : fs.Safe (.removeMarker a) := by
  rintro ⟨b, d, hb, hd⟩ hgone
  refine absurd ?_ hgone
  by_cases hab : b = a
  case pos => exact ⟨b, { d with marker := false }, by rw [step, dir_modify, if_pos hab, ← hab, hb]; rfl, hd⟩
  case neg => exact ⟨b, d, by rw [step, dir_modify, if_neg hab, hb], hd⟩

theorem safe_removeJournal : fs.Safe .removeJournal :=
  fun hheld hgone => absurd hheld hgone

theorem Fs.At.soundUnmark (h : fs.At (.marked n marker kept)) : Sound [.removeMarker .db] fs :=
  ⟨⟨⟨_, h⟩, ⟨_, h.unmark⟩⟩, ⟨safe_removeMarker _, trivial⟩⟩

inductive Resolved (fs : Fs) (steps : List FsStep) : Option Journal → Prop
  | nothing : steps = [] → fs.At .source ∨ fs.At .finished → Resolved fs steps none
  | completed {s : JournalState} {n : Nat} {kept : Bool} : (fs.run steps).At (.marked n false kept) →
      Resolved fs steps (some ⟨s, n, n⟩)

theorem resolveInterrupted_completed (hj : fs.journal = some j)
    (hr : recoverLocked path fs j = .ok (steps, .completed)) :
    resolveInterrupted path false fs = .ok (steps, some j) := by
  rw [resolveInterrupted, hj]
  simp only [Bool.false_eq_true, ite_false, hr]
  rfl

theorem resolveInterrupted_writes (path : String) (h : fs.At st) :
    ∃ steps resumed, resolveInterrupted path false fs = .ok (steps, resumed) ∧ Sound steps fs ∧
      Resolved fs steps resumed := by
  cases st
  case source =>
    refine ⟨[], none, ?_, .nil ⟨_, h⟩, .nothing rfl (.inl h)⟩
    rw [resolveInterrupted, h.journal]
  case staged n =>
    have hb : fs.dir (.backup n) = none := h.backup n
    have hr : recoverLocked path fs ⟨.swapping, n, n⟩ =
        .ok (.rename .db (.backup n) :: .rename (.upgrade n) .db :: markDone ⟨.swapping, n, n⟩, .completed) := by
      simp [recoverLocked, At.upgrade_eq (.inl h), Dir.catalogComplete, h.db, hb]
    exact ⟨_, _, resolveInterrupted_completed h.journal hr, .of_kept (h.finishStaged .swapping).1,
      .completed (h.finishStaged .swapping).2⟩
  case moved n =>
    have hr : recoverLocked path fs ⟨.swapping, n, n⟩ =
        .ok (.rename (.upgrade n) .db :: markDone ⟨.swapping, n, n⟩, .completed) := by
      simp [recoverLocked, At.upgrade_eq (.inr h), Dir.catalogComplete, h.db]
    exact ⟨_, _, resolveInterrupted_completed h.journal hr, .of_kept (h.finishMoved .swapping).1,
      .completed (h.finishMoved .swapping).2⟩
  case swapped n =>
    have hu : fs.dir (.upgrade n) = none := by simpa using h.upgrade n
    have hb : fs.dir (.backup n) = some original := (h.backup n).trans (if_pos rfl)
    have hr : recoverLocked path fs ⟨.swapping, n, n⟩ = .ok (markDone ⟨.swapping, n, n⟩, .completed) := by
      simp [recoverLocked, hu, Dir.catalogComplete, Dir.isOnda09, h.db, hb]
    exact ⟨_, _, resolveInterrupted_completed h.journal hr, .of_kept (h.markDone .swapping).1,
      .completed (h.markDone .swapping).2⟩
  case marked n m kept =>
    exact ⟨_, _, resolveInterrupted_completed h.journal rfl, h.soundUnmark, .completed h.unmark⟩
  case finished =>
    refine ⟨[], none, ?_, .nil ⟨_, h⟩, .nothing rfl (.inr h)⟩
    rw [resolveInterrupted, h.journal]

theorem resolveInterrupted_readOnly (h : resolveInterrupted path true fs = .ok (steps, resumed)) :
    steps = [] ∧ resumed = none ∧ ∀ j ∈ fs.journal, j.state = .done := by
  rw [resolveInterrupted] at h
  split at h
  case h_1 hj =>
    cases h
    exact ⟨rfl, rfl, by simp [hj]⟩
  case h_2 j hj =>
    rw [if_pos rfl] at h
    split at h
    case isTrue hd =>
      cases h
      exact ⟨rfl, rfl, by simpa [hj] using hd⟩
    case isFalse => cases h

theorem Fs.Sound.of_eq_nil (h : steps = []) (hg : fs.Good) : Sound steps fs := by
  subst h
  exact .nil hg

theorem finalize_sound (h : fs.At (.marked n false kept)) (keepBackup : Bool) (s : JournalState) :
    Sound (finalize keepBackup fs ⟨s, n, n⟩) fs ∧ (fs.run (finalize keepBackup fs ⟨s, n, n⟩)).At .finished := by
  have hdone : ∃ j ∈ fs.journal, j.state = .done := ⟨_, h.journal, rfl⟩
  rw [finalize]
  split
  case isTrue =>
    refine ⟨⟨⟨⟨_, h⟩, ⟨_, h.dropBackup⟩, ⟨_, h.dropBackup.close⟩⟩, ⟨?_, safe_removeJournal, trivial⟩⟩, h.dropBackup.close⟩
    exact fun _ _ => ⟨h.db, hdone⟩
  case isFalse => exact ⟨⟨⟨⟨_, h⟩, ⟨_, h.close⟩⟩, ⟨safe_removeJournal, trivial⟩⟩, h.close⟩

section

theorem mem_staleUpgrades : m ∈ staleUpgrades fs ↔ ∃ d, fs.dir (.upgrade m) = some d ∧ d.marker = true := by
  rw [staleUpgrades, List.mem_filterMap]
  constructor
  · rintro ⟨⟨a, d⟩, he, hm⟩
    cases a <;> simp only [Option.ite_none_right_eq_some, Option.some.injEq, reduceCtorEq] at hm
    obtain ⟨hd, rfl⟩ := hm
    exact ⟨d, AList.mem_lookup_iff.mpr he, hd⟩
  · rintro ⟨d, hd, hm⟩
    exact ⟨⟨_, d⟩, AList.mem_lookup_iff.mp hd, by simp [hm]⟩

theorem run_removeUpgrades (h : fs.At .source) (ms : List Nat) :
    Passes step Fs.Kept (ms.map fun m => .removeDir (.upgrade m)) fs ∧
      (fs.run (ms.map fun m => .removeDir (.upgrade m))).At .source ∧
      ∀ x, (fs.run (ms.map fun m => .removeDir (.upgrade m))).dir x =
        if ∃ m ∈ ms, x = .upgrade m then none else fs.dir x := by
  induction ms generalizing fs
  case nil => exact ⟨⟨_, h, trivial⟩, h, fun x => by simp [run]⟩
  case cons m ms ih =>
    obtain ⟨hp, hat, hdir⟩ := ih (h.sweep m)
    refine ⟨⟨⟨_, h, trivial⟩, hp⟩, hat, fun x => (hdir x).trans ?_⟩
    rw [dir_removeDir]
    by_cases hx : x = .upgrade m <;> simp [hx]

theorem sweep_sound (h : fs.At .source) :
    Passes step Fs.Kept (sweepStaleUpgradeDirs fs) fs ∧ (fs.run (sweepStaleUpgradeDirs fs)).At .source ∧
      (∀ m, Stale ((fs.run (sweepStaleUpgradeDirs fs)).dir (.upgrade m))) ∧
      ∀ a, fs.dir a = none → (fs.run (sweepStaleUpgradeDirs fs)).dir a = none := by
  obtain ⟨hp, hat, hdir⟩ := run_removeUpgrades h (staleUpgrades fs)
  refine ⟨hp, hat, fun m d hd => ?_, fun a ha => by rw [sweepStaleUpgradeDirs, hdir, ha, ite_self]⟩
  rw [sweepStaleUpgradeDirs, hdir, Option.mem_def, Option.ite_none_left_eq_some] at hd
  have hnot : m ∉ staleUpgrades fs := fun hm => hd.1 ⟨m, hm, rfl⟩
  rw [mem_staleUpgrades] at hnot
  cases hm : d.marker
  case false => rfl
  case true => exact absurd ⟨d, hd.2, hm⟩ hnot

end

def stageSteps (x : Outside) : List FsStep :=
  [.createDir (.upgrade x.nonce), .writeMarker (.upgrade x.nonce), .build (.upgrade x.nonce) x.verified]

theorem dir_stage (fs : Fs) (x : Outside) (a : Name) :
    (fs.run (stageSteps x)).dir a =
      if a = .upgrade x.nonce then some ⟨if x.verified then .rebuilt else .unfinished, true⟩ else fs.dir a := by
  have hrun : fs.run (stageSteps x) =
      ((fs.step (.createDir (.upgrade x.nonce))).modify (.upgrade x.nonce) ({ · with marker := true })).modify
        (.upgrade x.nonce) ({ · with contents := if x.verified then .rebuilt else .unfinished }) := rfl
  rw [hrun, dir_modify, dir_modify, if_pos rfl, dir_createDir, if_pos rfl, dir_modify]
  split
  case isTrue => rfl
  case isFalse ha => rw [dir_createDir, if_neg ha]

theorem stage_sound (h : fs.At .source) (x : Outside) :
    Passes step Fs.Kept (stageSteps x) fs ∧ (fs.run (stageSteps x)).At .source := by
  have h₁ := h.createDir (n := x.nonce)
  have h₂ := h₁.modify (n := x.nonce) ({ · with marker := true })
  have h₃ := h₂.modify (n := x.nonce) ({ · with contents := if x.verified then .rebuilt else .unfinished })
  exact ⟨⟨⟨_, h, trivial⟩, ⟨_, h₁, trivial⟩, ⟨_, h₂, trivial⟩, ⟨_, h₃, trivial⟩⟩, h₃⟩

theorem swap_sound (h : fs.At .source) (hn : fs.dir (.upgrade n) = some ⟨.rebuilt, true⟩)
    (hs : ∀ m ≠ n, Stale (fs.dir (.upgrade m))) :
    Passes step Fs.Kept (swap n) fs ∧ (fs.run (swap n)).At (.marked n false true) := by
  have hswap := (h.stage hn hs).finishStaged .swapping
  exact ⟨⟨⟨_, h, trivial⟩, hswap.1⟩, hswap.2⟩

theorem runUpgrade_sound (h : fs.At .source) (x : Outside) :
    Sound (runUpgrade x fs).1 fs ∧
      ((runUpgrade x fs).2 = none ∧ ¬(x.preflight ∧ x.verified ∧ fs.dir (.upgrade x.nonce) = none) ∨ (runUpgrade x fs).2 = some ⟨.done, x.nonce, x.nonce⟩ ∧
        (fs.run (runUpgrade x fs).1).At (.marked x.nonce false true)) := by
  obtain ⟨hp, hat, hstale, hnone⟩ := sweep_sound h
  rw [runUpgrade]
  split
  case isTrue hfail =>
    refine ⟨.of_kept hp, .inl ⟨rfl, fun ⟨hpre, _, hu⟩ => ?_⟩⟩
    simp [hpre, hnone _ hu] at hfail
  obtain ⟨hp', hat'⟩ := stage_sound hat x
  have hstage := hp.append hp'
  have hrun (more : List FsStep) : fs.run (sweepStaleUpgradeDirs fs ++ stageSteps x ++ more) =
      ((fs.run (sweepStaleUpgradeDirs fs)).run (stageSteps x)).run more := by
    simp [run, List.foldl_append]
  split
  case isTrue hv =>
    have hu := (dir_stage (fs.run (sweepStaleUpgradeDirs fs)) x (.upgrade x.nonce)).trans (if_pos rfl)
    rw [if_pos hv] at hu
    obtain ⟨hp'', hat''⟩ := swap_sound hat' hu fun m hm => by
      rw [dir_stage, if_neg fun h => hm (Name.upgrade.inj h)]
      exact hstale m
    refine ⟨.of_kept (hstage.append ?_), .inr ⟨rfl, ?_⟩⟩
    · rw [List.foldl_append]
      exact hp''
    · exact (hrun _).symm ▸ hat''
  case isFalse hv =>
    refine ⟨.of_kept (hstage.append ?_), .inl ⟨rfl, fun h => hv h.2.1⟩⟩
    rw [List.foldl_append]
    exact ⟨⟨_, hat', trivial⟩, ⟨_, hat'.sweep _, trivial⟩⟩

section

variable {o : Options} {x : Outside}

-- What a successful open stands for: the directory it found is there and whole, and one that may
-- write has left nothing of the protocol behind.
structure Opens (p : List FsStep × Outcome) (fs : Fs) (d : Dir) (writable : Bool) : Prop where
  found : (fs.run p.1).dir .db = some d
  whole : d = original ∨ d.contents = .rebuilt
  clean : writable = true → (fs.run p.1).At .finished

def OpensOk (p : List FsStep × Outcome) (fs : Fs) : Prop :=
  ∀ d writable, p.2 = .opened d writable → Opens p fs d writable

theorem openEpoch1_eq (hdb : (fs.dir .db).isSome)
    (hdrop : (resumed.map (finalize o.keepBackup fs)).getD [] = drop) :
    openEpoch1 o x fs resumed =
      if x.opens then (drop, ((fs.run drop).dir .db).elim .failed (.opened · !o.readOnly)) else ([], .failed) := by
  subst hdrop
  rw [openEpoch1, if_pos hdb]
  cases x.opens <;> rfl

theorem openEpoch1_resumed (h : fs.At (.marked n false kept)) (s : JournalState) :
    Sound (openEpoch1 o x fs (some ⟨s, n, n⟩)).1 fs ∧ OpensOk (openEpoch1 o x fs (some ⟨s, n, n⟩)) fs ∧
      (x.opens → (openEpoch1 o x fs (some ⟨s, n, n⟩)).2 = .opened ⟨.rebuilt, false⟩ !o.readOnly) := by
  obtain ⟨hsound, hfin⟩ := finalize_sound h o.keepBackup s
  rw [openEpoch1_eq (by rw [h.db]; rfl) rfl, Option.map_some, Option.getD_some, hfin.db]
  split
  case isTrue hx =>
    refine ⟨hsound, fun d w ho => ?_, fun _ => rfl⟩
    cases ho
    exact ⟨hfin.db, .inr rfl, fun _ => hfin⟩
  case isFalse hx => exact ⟨.nil ⟨_, h⟩, nofun, fun h => absurd h hx⟩

theorem openEpoch1_idle (hdb : fs.dir .db = some ⟨.rebuilt, m⟩) (hw : o.readOnly = false → fs.At .finished) :
    (openEpoch1 o x fs none).1 = [] ∧ OpensOk (openEpoch1 o x fs none) fs ∧
      (x.opens → (openEpoch1 o x fs none).2 = .opened ⟨.rebuilt, m⟩ !o.readOnly) := by
  have hnil : fs.run [] = fs := rfl
  rw [openEpoch1_eq (by rw [hdb]; rfl) rfl, Option.map_none, Option.getD_none, hnil, hdb]
  split
  case isTrue hx =>
    refine ⟨rfl, fun d w ho => ?_, fun _ => rfl⟩
    cases ho
    exact ⟨hdb, .inr rfl, fun hro => hw (by simpa using hro)⟩
  case isFalse hx => exact ⟨rfl, nofun, fun h => absurd h hx⟩

theorem Opens.append (h : Opens p (fs.run steps) d w) : Opens (steps ++ p.1, p.2) fs d w := by
  have hrun : fs.run (steps ++ p.1) = (fs.run steps).run p.1 := List.foldl_append ..
  exact ⟨hrun ▸ h.found, h.whole, fun hw => hrun ▸ h.clean hw⟩

theorem OpensOk.append (h : OpensOk p (fs.run steps)) :
    OpensOk (steps ++ p.1, p.2) fs :=
  fun d w ho => (h d w ho).append

theorem openLegacy_sound (h : fs.At .source) :
    Sound (openLegacy o x fs original).1 fs ∧ OpensOk (openLegacy o x fs original) fs ∧
      (o.formatUpgrade = .auto → o.readOnly = false → x.preflight → x.verified → x.opens →
        fs.dir (.upgrade x.nonce) = none → (openLegacy o x fs original).2 = .opened ⟨.rebuilt, false⟩ true) := by
  rw [openLegacy]
  split
  case isTrue hf => exact ⟨.nil ⟨_, h⟩, nofun, fun ha => by rw [ha] at hf; cases hf⟩
  case isFalse hf =>
    split
    case isTrue hl =>
      refine ⟨.nil ⟨_, h⟩, fun d w ho => ?_, fun ha hr => by simp [ha, hr] at hl⟩
      cases ho
      exact ⟨h.db, .inl rfl, nofun⟩
    case isFalse hl =>
      obtain ⟨hsound, hup⟩ := runUpgrade_sound h x
      simp only
      rcases hup with ⟨hnone, hfail⟩ | ⟨hsome, hat⟩
      · rw [hnone]
        exact ⟨hsound, nofun, fun _ _ hp hv _ hu => absurd ⟨hp, hv, hu⟩ hfail⟩
      · rw [hsome]
        obtain ⟨hs, ho, hok⟩ := openEpoch1_resumed (o := o) (x := x) hat .done
        exact ⟨hsound.append hs, ho.append, fun _ hr _ _ hx _ => (hok hx).trans (by rw [hr]; rfl)⟩

theorem openObserved_of_rebuilt (hr : resolveInterrupted path o.readOnly fs = .ok (steps, resumed))
    (hdb : (fs.run steps).dir .db = some ⟨.rebuilt, marker⟩) :
    openObserved path o x fs =
      (steps ++ (openEpoch1 o x (fs.run steps) resumed).1, (openEpoch1 o x (fs.run steps) resumed).2) := by
  simp only [openObserved, hr, hdb]
  rfl

theorem openObserved_of_original (hr : resolveInterrupted path o.readOnly fs = .ok (steps, resumed))
    (hdb : (fs.run steps).dir .db = some original) :
    openObserved path o x fs =
      (steps ++ (openLegacy o x (fs.run steps) original).1, (openLegacy o x (fs.run steps) original).2) := by
  simp only [openObserved, hr, hdb]
  rfl

theorem openObserved_writes (path : String) (x : Outside) (h : fs.At st) (hw : o.readOnly = false) :
    Sound (openObserved path o x fs).1 fs ∧ OpensOk (openObserved path o x fs) fs ∧
      (o.formatUpgrade = .auto → x.preflight → x.verified → x.opens → fs.dir (.upgrade x.nonce) = none →
        (openObserved path o x fs).2 = .opened ⟨.rebuilt, false⟩ true) := by
  obtain ⟨steps, resumed, hr, hsound, hres⟩ := resolveInterrupted_writes path h
  rw [← hw] at hr
  cases hres
  case nothing hnil hat =>
    subst hnil
    rcases hat with hat | hat
    · obtain ⟨hs, ho, hok⟩ := openLegacy_sound (o := o) (x := x) hat
      rw [openObserved_of_original hr hat.db]
      exact ⟨hs, ho, fun ha => hok ha hw⟩
    · obtain ⟨hs, ho, hok⟩ := openEpoch1_idle (o := o) (x := x) hat.db fun _ => hat
      rw [openObserved_of_rebuilt hr hat.db]
      exact ⟨.of_eq_nil hs ⟨_, hat⟩, ho, fun _ _ _ hx _ => (hok hx).trans (by rw [hw]; rfl)⟩
  case completed s n kept hat =>
    obtain ⟨hs, ho, hok⟩ := openEpoch1_resumed (o := o) (x := x) hat s
    rw [openObserved_of_rebuilt hr hat.db]
    exact ⟨hsound.append hs, ho.append, fun _ _ _ hx _ => (hok hx).trans (by rw [hw]; rfl)⟩

theorem openObserved_readOnly (h : fs.At st) (hro : o.readOnly = true) :
    Sound (openObserved path o x fs).1 fs ∧ OpensOk (openObserved path o x fs) fs := by
  have hnil : fs.run [] = fs := rfl
  cases hr : resolveInterrupted path o.readOnly fs
  case error e =>
    rw [openObserved, hr]
    exact ⟨.nil ⟨_, h⟩, nofun⟩
  case ok p =>
    obtain ⟨steps, resumed⟩ := p
    rw [hro] at hr
    obtain ⟨rfl, rfl, hdone⟩ := resolveInterrupted_readOnly hr
    rw [← hro] at hr
    have hidle {m : Bool} (hdb : fs.dir .db = some ⟨.rebuilt, m⟩) :
        Sound (openObserved path o x fs).1 fs ∧ OpensOk (openObserved path o x fs) fs := by
      obtain ⟨hs, ho, -⟩ := openEpoch1_idle (o := o) (x := x) hdb fun hw => by simp [hro] at hw
      rw [openObserved_of_rebuilt hr hdb]
      exact ⟨.of_eq_nil hs ⟨_, h⟩, ho⟩
    have hswapping {n : Nat} (hj : fs.journal = some ⟨.swapping, n, n⟩) : False := by
      cases hdone _ hj
    cases st
    case source =>
      obtain ⟨hs, ho, -⟩ := openLegacy_sound (o := o) (x := x) h
      rw [openObserved_of_original hr h.db]
      exact ⟨hs, ho⟩
    case staged n => exact (hswapping h.journal).elim
    case moved n => exact (hswapping h.journal).elim
    case swapped n => exact (hswapping h.journal).elim
    case marked n m kept => exact hidle h.db
    case finished => exact hidle h.db

theorem upgradeObserved_sound (h : fs.At st) :
    Sound (upgradeObserved path o x fs).1 fs ∧ OpensOk (upgradeObserved path o x fs) fs := by
  have hnil : fs.run [] = fs := rfl
  have hsource (h : fs.At .source) (hr : resolveInterrupted path o.readOnly fs = .ok ([], none)) :
      Sound (upgradeObserved path o x fs).1 fs ∧ OpensOk (upgradeObserved path o x fs) fs := by
    obtain ⟨hsound, hup⟩ := runUpgrade_sound h x
    have hdb : (fs.dir .db).any Dir.isOnda09 = true := by rw [h.db]; rfl
    simp only [upgradeObserved, hr, hnil, hdb, if_true, List.nil_append]
    rcases hup with ⟨hnone, -⟩ | ⟨hsome, hat⟩
    · rw [hnone]
      exact ⟨hsound, nofun⟩
    · rw [hsome]
      exact ⟨hsound.append (finalize_sound hat _ .done).1, nofun⟩
  have hrebuilt {m : Bool} (hdb : fs.dir .db = some ⟨.rebuilt, m⟩)
      (hr : resolveInterrupted path o.readOnly fs = .ok ([], none)) :
      Sound (upgradeObserved path o x fs).1 fs ∧ OpensOk (upgradeObserved path o x fs) fs := by
    have hdb : (fs.dir .db).any Dir.isOnda09 = false := by rw [hdb]; rfl
    simp only [upgradeObserved, hr, hnil, hdb, Bool.false_eq_true, if_false]
    exact ⟨.nil ⟨_, h⟩, nofun⟩
  cases hw : o.readOnly
  case false =>
    obtain ⟨steps, resumed, hr, hsound, hres⟩ := resolveInterrupted_writes path h
    rw [← hw] at hr
    cases hres
    case nothing hsteps hat =>
      subst hsteps
      rcases hat with hat | hat
      · exact hsource hat hr
      · exact hrebuilt hat.db hr
    case completed s n kept hat =>
      simp only [upgradeObserved, hr]
      exact ⟨hsound.append (finalize_sound hat _ s).1, nofun⟩
  case true =>
    cases hr : resolveInterrupted path o.readOnly fs
    case error e =>
      rw [upgradeObserved, hr]
      exact ⟨.nil ⟨_, h⟩, nofun⟩
    case ok p =>
      obtain ⟨steps, resumed⟩ := p
      obtain ⟨rfl, rfl, hdone⟩ := resolveInterrupted_readOnly (hw ▸ hr)
      have hswapping {n : Nat} (hj : fs.journal = some ⟨.swapping, n, n⟩) : False := by
        cases hdone _ hj
      cases st
      case source => exact hsource h hr
      case staged n => exact (hswapping h.journal).elim
      case moved n => exact (hswapping h.journal).elim
      case swapped n => exact (hswapping h.journal).elim
      case marked n m kept => exact hrebuilt h.db hr
      case finished => exact hrebuilt h.db hr

theorem plan_sound (path : String) (h : fs.Good) (c : Call) : Sound (c.plan path fs).1 fs ∧ OpensOk (c.plan path fs) fs := by
  obtain ⟨st, h⟩ := h
  obtain ⟨entry, o, x⟩ := c
  cases entry
  case upgrade => exact upgradeObserved_sound h
  case «open» =>
    cases hw : o.readOnly
    case false =>
      obtain ⟨hs, ho, -⟩ := openObserved_writes path x h hw
      exact ⟨hs, ho⟩
    case true => exact openObserved_readOnly h hw

end

theorem good_legacy : legacy.Good :=
  ⟨.source, rfl, rfl, fun _ => trivial, fun _ => rfl⟩

theorem good_of_reachable (h : Reachable legacy (CallStep path) fs) : fs.Good := by
  apply h.invariant good_legacy
  rintro fs fs' ⟨c, k, rfl⟩ hg
  exact (plan_sound _ hg c).1.good.cut k

-- Wherever the calls before it were cut: what a successful open finds is the untouched 0.9 database
-- or the verified epoch-1 one, and the latter, with no journal and no marker left, if it may write;
-- the 0.9 directory goes only behind a journal that says done; and a read-write open that nothing
-- stops succeeds.
theorem swap_survives_crashes (h : Reachable legacy (CallStep path) fs) (c : Call) :
    (∀ d writable, (c.plan path fs).2 = .opened d writable →
      (fs.run (c.plan path fs).1).dir .db = some d ∧ (d = original ∨ d.contents = .rebuilt) ∧
      (writable = true → d = ⟨.rebuilt, false⟩ ∧ (fs.run (c.plan path fs).1).journal = none ∧
        ∀ a x, (fs.run (c.plan path fs).1).dir a = some x → x.marker = false)) ∧
    Along step Safe (c.plan path fs).1 fs ∧
    (c.entry = .open → c.options.formatUpgrade = .auto → c.options.readOnly = false → c.outside.preflight →
      c.outside.verified → c.outside.opens → fs.dir (.upgrade c.outside.nonce) = none →
      (c.plan path fs).2 = .opened ⟨.rebuilt, false⟩ true) := by
  have hgood := good_of_reachable h
  obtain ⟨hsound, hopens⟩ := plan_sound path hgood c
  refine ⟨fun d w ho => ?_, hsound.safe, fun he ha hw hp hv hx hu => ?_⟩
  · have hop := hopens d w ho
    refine ⟨hop.found, hop.whole, fun hw => ?_⟩
    have hfin := hop.clean hw
    refine ⟨Option.some.inj (hop.found.symm.trans hfin.db), hfin.journal, fun a x hax => ?_⟩
    cases a
    case db => rw [Option.some.inj (hax.symm.trans hfin.db)]
    case upgrade m => exact hfin.upgrade m x hax
    case backup m => exact hfin.backup m x hax
  · obtain ⟨st, hst⟩ := hgood
    rw [Call.plan, he]
    exact (openObserved_writes _ _ hst hw).2.2 ha hp hv hx hu

def upgradingOpen (nonce : Nat) : Call :=
  ⟨.open, ⟨.auto, false, false⟩, ⟨nonce, true, true, true⟩⟩

def betweenRenames : Fs :=
  Plan.cut step ((upgradingOpen 0).plan "db" legacy).1 (some 5) legacy

theorem swap_survives_crashes_betweenRenames :
    betweenRenames.dir .db = none ∧ betweenRenames.dir (.backup 0) = some original ∧
    ((upgradingOpen 1).plan "db" betweenRenames).2 = .opened ⟨.rebuilt, false⟩ true ∧
    (betweenRenames.run ((upgradingOpen 1).plan "db" betweenRenames).1).journal = none := by
  have hrun : Reachable legacy (CallStep "db") betweenRenames := Reachable.start.next ⟨upgradingOpen 0, some 5, rfl⟩
  obtain ⟨hopened, -, hprogress⟩ := swap_survives_crashes hrun (upgradingOpen 1)
  have hopens := hprogress rfl rfl rfl rfl rfl rfl (by decide +kernel)
  exact ⟨by decide +kernel, by decide +kernel, hopens, (((hopened _ _ hopens).2.2 rfl).2.1)⟩

end OndaDb.Upgrade

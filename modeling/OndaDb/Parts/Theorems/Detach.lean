import OndaDb.Parts.Detach
import OndaDb.Parts.Theorems.Named

namespace OndaDb.Parts.Detach.State

open List

variable {R B : Type} [DecidableEq R] [DecidableEq B] {place : Backend → String → R}
variable {partition : Table B → Option String} {aside : String → String → R × String} {s : State R B}

def Held (place : Backend → String → R) (s : State R B) (p : Part R B) (t : Table B) (ext : Ext) (b : B) : Prop :=
  s.files.lookup (p.home place t ext) = some (some b) ∨
  s.files.lookup (p.home place t ext) = none ∧ s.files.lookup (p.dest t ext) = some (some b)

def Running (partition : Table B → Option String) (s : State R B) (p : Part R B) : Stage B → Prop
  | .edit => p.tiers = s.tiers ∧
    ∀ t ∈ s.catalog, t.cf = p.cf → partition t = some p.partition → t ∈ p.tables
  | .createDir => ∀ t ∈ p.tables, t ∉ s.catalog
  | .rename files => (∀ t ∈ p.tables, t ∉ s.catalog) ∧ ∀ f ∈ files, f.1 ∈ p.tables

structure Kept (place : Backend → String → R) (partition : Table B → Option String)
    (aside : String → String → R × String) (known : List (Table B)) (s : State R B) : Prop where
  catalog : ∀ t ∈ s.catalog, t ∈ known
  tables : ∀ p ∈ s.parts, ∀ t ∈ p.tables, t ∈ known ∧ t.object = none
  key : ∀ p ∈ s.parts, p.aside = aside p.cf p.partition ∧
    ∀ t ∈ p.tables, t.cf = p.cf ∧ partition t = some p.partition
  all : ∀ p ∈ s.parts, (∀ t ∈ p.tables, t ∈ s.catalog) ∨ ∀ t ∈ p.tables, t ∉ s.catalog
  home : ∀ p ∈ s.parts, ∀ t ∈ p.tables, t ∈ s.catalog → ∀ ext, p.home place t ext = s.tiers.pathFor place t ext
  agree : ∀ p ∈ s.parts, ∀ p' ∈ s.parts, ∀ t ∈ p.tables, t ∈ p'.tables → ∀ ext, p.home place t ext = p'.home place t ext
  shared : s.phase ≠ .closed → ∀ t ∈ s.catalog, t.object.isSome → s.tiers.tierIsShared t.tier
  intact : ∀ t ∈ s.catalog, s.Intact place t
  gone : ∀ p ∈ s.parts, ∀ t ∈ p.tables, t ∉ s.catalog → ∀ ext b, t.content ext = some b → s.Held place p t ext b
  job : ∀ p stage, s.job = some (p, stage) → s.phase = .running ∧ p ∈ s.parts ∧ Running partition s p stage
  opening : s.phase = .opening → (∀ t ∈ s.catalog, s.tiers.SweepsApart place t) ∧
    ∀ p ∈ s.parts, ∀ t ∈ p.tables, t ∉ s.catalog → ∀ ext, ∃ l ∈ [p.home place t ext, p.dest t ext],
      s.HeldAt t ext l ∧ ¬s.InDefaultDir place s.tiers l

namespace Kept

variable {known : List (Table B)}

omit [DecidableEq B] in
theorem atRest (h : s.AtRest place) : s.Kept place partition aside s.catalog where
  catalog := fun _ => id
  tables := by simp [h.parts]
  key := by simp [h.parts]
  all := by simp [h.parts]
  home := by simp [h.parts]
  agree := by simp [h.parts]
  shared := fun hne => absurd h.phase hne
  __ := h
  gone := by simp [h.parts]
  job := by simp [h.job]
  opening := fun ho => by cases h.phase.symm.trans ho

omit [DecidableEq B] in
theorem whole (h : s.Kept place partition aside known) (hp : p ∈ s.parts) : s.Whole place p := by
  refine (h.all p hp).imp (fun hc t ht => ⟨hc t ht, h.intact t (hc t ht)⟩) fun hn t ht => ⟨hn t ht, fun ext => ?_⟩
  cases hb : t.content ext
  case none => exact .inl fun b hb' => by cases hb.symm.trans hb'
  case some b =>
    have hset {l : Loc R} (hl : s.files.lookup l = some (some b)) : s.HeldAt t ext l := by
      intro b' hb'
      cases hb.symm.trans hb'
      exact hl
    exact (h.gone p hp t ht (hn t ht) ext b hb).imp hset fun hd => hset hd.right

theorem call (h : s.Kept place partition aside known) (he : s.Enabled place partition (.call cf name)) :
    (s.exec place partition aside (.call cf name)).Kept place partition aside known := by
  obtain ⟨hrun, _, _, hsh⟩ := he
  have hne : s.phase ≠ .closed := by rw [hrun]; exact Phase.noConfusion
  have hmem {t : Table B} (ht : t ∈ s.bottomPartitionHandles partition cf name) :
      t ∈ s.catalog ∧ t.cf = cf ∧ partition t = some name :=
    ⟨(mem_filter.mp ht).left, of_decide_eq_true (mem_filter.mp ht).right⟩
  constructor
  case catalog => exact h.catalog
  case tables =>
    refine forall_mem_cons.mpr ⟨fun t ht => ⟨h.catalog t (hmem ht).left, ?_⟩, h.tables⟩
    by_contra ho
    exact hsh t ht (h.shared hne t (hmem ht).left (Option.isSome_iff_ne_none.mpr ho))
  case key => exact forall_mem_cons.mpr ⟨⟨rfl, fun t ht => (hmem ht).right⟩, h.key⟩
  case all => exact forall_mem_cons.mpr ⟨.inl fun t ht => (hmem ht).left, h.all⟩
  case home => exact forall_mem_cons.mpr ⟨fun t _ _ ext => rfl, h.home⟩
  case agree =>
    refine forall_mem_cons.mpr ⟨forall_mem_cons.mpr ⟨fun t _ _ ext => rfl, fun p hp t ht ht' ext => ?_⟩,
      fun p hp => forall_mem_cons.mpr ⟨fun t ht ht' ext => ?_, h.agree p hp⟩⟩
    · exact (h.home p hp t ht' (hmem ht).left ext).symm
    · exact h.home p hp t ht (hmem ht').left ext
  case shared => exact h.shared
  case intact => exact h.intact
  case gone =>
    exact forall_mem_cons.mpr ⟨fun t ht hnot => absurd (hmem ht).left hnot, h.gone⟩
  case job =>
    rintro p stage hj
    cases hj
    refine ⟨hrun, mem_cons_self, rfl, fun t ht hcf hpart => ?_⟩
    exact mem_filter.mpr ⟨ht, decide_eq_true ⟨hcf, hpart⟩⟩
  case opening => exact fun ho => by cases hrun.symm.trans ho

theorem edit (h : s.Kept place partition aside known) (hj : s.job = some (p, .edit)) :
    (s.exec place partition aside .edit).Kept place partition aside known := by
  obtain ⟨hrun, hp, htiers, hall⟩ := h.job p _ hj
  have hmem {t : Table B} : t ∈ s.catalog.filter (· ∉ p.tables) ↔ t ∈ s.catalog ∧ t ∉ p.tables := by
    simp only [mem_filter, decide_eq_true_eq]
  simp only [exec, hj]
  constructor
  case catalog => exact fun t ht => h.catalog t (hmem.mp ht).left
  case tables => exact h.tables
  case key => exact h.key
  case all =>
    intro p' hp'
    rcases h.all p' hp' with hin | hout
    · -- Either all tables of the other call are of this partition, or none is.
      by_cases hk : p'.cf = p.cf ∧ p'.partition = p.partition
      · refine .inr fun t ht hin' => (hmem.mp hin').right (hall t (hin t ht) ?_ ?_)
        · exact ((h.key p' hp').right t ht).left.trans hk.left
        · rw [((h.key p' hp').right t ht).right, hk.right]
      · refine .inl fun t ht => hmem.mpr ⟨hin t ht, fun htp => hk ⟨?_, ?_⟩⟩
        · exact ((h.key p' hp').right t ht).left.symm.trans ((h.key p hp).right t htp).left
        · exact Option.some.inj (((h.key p' hp').right t ht).right.symm.trans ((h.key p hp).right t htp).right)
    · exact .inr fun t ht hin' => hout t ht (hmem.mp hin').left
  case home => exact fun p' hp' t ht hc => h.home p' hp' t ht (hmem.mp hc).left
  case agree => exact h.agree
  case shared => exact fun hne t ht => h.shared hne t (hmem.mp ht).left
  case intact => exact fun t ht => h.intact t (hmem.mp ht).left
  case gone =>
    intro p' hp' t ht hnot ext b hb
    by_cases hc : t ∈ s.catalog
    · left
      rw [h.home p' hp' t ht hc ext]
      exact h.intact t hc ext b hb
    · exact h.gone p' hp' t ht hc ext b hb
  case job =>
    rintro p' stage hj'
    cases hj'
    exact ⟨hrun, hp, fun t ht hin => (hmem.mp hin).right ht⟩
  case opening => exact fun ho => by cases hrun.symm.trans ho

theorem createDir (h : s.Kept place partition aside known) (hj : s.job = some (p, .createDir)) :
    (s.exec place partition aside .createDir).Kept place partition aside known := by
  obtain ⟨hrun, hp, hout⟩ := h.job p _ hj
  simp only [exec, hj]
  refine ⟨h.catalog, h.tables, h.key, h.all, h.home, h.agree, h.shared, h.intact, h.gone, ?_, h.opening⟩
  rintro p' stage hj'
  cases hj'
  refine ⟨hrun, hp, hout, fun f hf => ?_⟩
  obtain ⟨t, ht, hf⟩ := mem_flatMap.mp hf
  rcases mem_cons.mp hf with rfl | hf
  · exact ht
  · cases mem_singleton.mp hf
    exact ht

omit [DecidableEq B] in
theorem ended (h : s.Kept place partition aside known) : { s with job := none }.Kept place partition aside known :=
  ⟨h.catalog, h.tables, h.key, h.all, h.home, h.agree, h.shared, h.intact, h.gone, fun _ _ hj => by (cases hj),
    h.opening⟩

omit [DecidableEq B] in
theorem home_name (h : s.Kept place partition aside known) (hp : p ∈ s.parts) (ht : t ∈ p.tables) (ext : Ext) :
    (p.home place t ext).name = .table t.id ext := by
  unfold Part.home
  rw [Tiers.pathFor_of_object_eq_none (h.tables p hp t ht).right]

omit [DecidableEq B] in
theorem dest_eq (h : s.Kept place partition aside known) (hp : p ∈ s.parts) (hp' : p' ∈ s.parts) (ht : t ∈ p.tables)
    (ht' : t ∈ p'.tables) (ext : Ext) : p'.dest t ext = p.dest t ext := by
  obtain ⟨ha, hk⟩ := h.key p hp
  obtain ⟨ha', hk'⟩ := h.key p' hp'
  have hcf := (hk' t ht').left.symm.trans (hk t ht).left
  have hpart := Option.some.inj ((hk' t ht').right.symm.trans (hk t ht).right)
  unfold Part.dest
  rw [ha, ha', hcf, hpart]

omit [DecidableEq B] in
theorem rename_file (hd : ∀ t ∈ known, ∀ t' ∈ known, t.id = t'.id → t = t') (h : s.Kept place partition aside known)
    (hj : s.job = some (p, .rename ((t, ext) :: rest))) (hl : s.files.lookup (p.home place t ext) = some c) :
    { s with
      job := some (p, .rename rest)
      files := (s.files.erase (p.home place t ext)).insert (p.dest t ext) c }.Kept place partition aside known := by
  obtain ⟨hrun, hp, hout, hfiles⟩ := h.job p _ hj
  have ht : t ∈ p.tables := hfiles (t, ext) mem_cons_self
  have hname := h.home_name hp ht ext
  have hf {l : Loc R} (hne : l.name ≠ .table t.id ext) :
      ((s.files.erase (p.home place t ext)).insert (p.dest t ext) c).lookup l = s.files.lookup l := by
    rw [Map.lookup_insert_eq, if_neg, Map.lookup_erase_eq, if_neg]
    · rintro rfl
      exact hne hname
    · rintro rfl
      exact hne rfl
  refine ⟨h.catalog, h.tables, h.key, h.all, h.home, h.agree, h.shared, fun t' ht' => ?_,
    fun p' hp' t' ht' hnot ext' b hb => ?_, ?_, fun ho => by cases hrun.symm.trans ho⟩
  · refine (h.intact t' ht').of_lookup fun ext' _ => hf fun he => ?_
    have hid := (Tiers.id_eq_of_name he).left
    exact hout t ht (hd t' (h.catalog t' ht') t (h.tables p hp t ht).left hid ▸ ht')
  · have hg := h.gone p' hp' t' ht' hnot ext' b hb
    by_cases he : t'.id = t.id ∧ ext' = ext
    · obtain ⟨hid, rfl⟩ := he
      cases hd t' (h.tables p' hp' t' ht').left t (h.tables p hp t ht).left hid
      have hhome := h.agree p' hp' p hp t ht' ht ext'
      have hdest := h.dest_eq hp hp' ht ht' ext'
      unfold Held at hg ⊢
      rw [hhome, hl] at hg
      obtain rfl : c = some b := by
        rcases hg with hg | ⟨hg, _⟩
        · exact Option.some.inj hg
        · cases hg
      rw [hhome, hdest]
      by_cases heq : p.home place t ext' = p.dest t ext'
      · left
        rw [Map.lookup_insert_eq, if_pos heq]
      · right
        rw [Map.lookup_insert_eq, if_neg heq, Map.lookup_erase_eq, if_pos rfl, Map.lookup_insert_eq, if_pos rfl]
        exact ⟨rfl, rfl⟩
    · have hne {n : FileName} (hn : n = .table t'.id ext') : n ≠ .table t.id ext := by
        rw [hn]
        exact fun heq => he (FileName.table.inj heq)
      unfold Held
      rw [hf (hne (h.home_name hp' ht' ext')), hf (hne (n := (p'.dest t' ext').name) rfl)]
      exact hg
  · rintro p'' stage hj'
    cases hj'
    exact ⟨hrun, hp, hout, fun f hm => hfiles f (mem_cons_of_mem _ hm)⟩

theorem rename (hd : ∀ t ∈ known, ∀ t' ∈ known, t.id = t'.id → t = t') (h : s.Kept place partition aside known) :
    (s.exec place partition aside .rename).Kept place partition aside known := by
  simp only [exec]
  split
  case h_1 p t ext rest hj =>
    split
    case h_1 c hl => exact h.rename_file hd hj hl
    case h_2 =>
      obtain ⟨hrun, hp, hout, hfiles⟩ := h.job p _ hj
      refine ⟨h.catalog, h.tables, h.key, h.all, h.home, h.agree, h.shared, h.intact, h.gone, ?_, h.opening⟩
      rintro p' stage hj'
      cases hj'
      exact ⟨hrun, hp, hout, fun f hm => hfiles f (mem_cons_of_mem _ hm)⟩
    case h_3 => exact h.ended
  case h_2 => exact h.ended

theorem «open» {tiers : Tiers} (h : s.Kept place partition aside known) (he : s.phase = .closed)
    (hs : s.Settled place (.open tiers)) :
    (s.exec place partition aside (.open tiers)).Kept place partition aside known := by
  obtain ⟨hcat, hparts⟩ := hs
  have hpath {t : Table B} (ht : t ∈ s.catalog) (ext : Ext) : tiers.pathFor place t ext = s.tiers.pathFor place t ext :=
    (hcat t ht).right.left ext (by cases ext <;> simp)
  constructor
  case catalog => exact h.catalog
  case tables => exact h.tables
  case key => exact h.key
  case all => exact h.all
  case home => exact fun p hp t ht hc ext => (h.home p hp t ht hc ext).trans (hpath hc ext).symm
  case agree => exact h.agree
  case shared => exact fun _ t ht => (hcat t ht).left
  case intact => exact fun t ht ext b hb => (congrArg s.files.lookup (hpath ht ext)).trans (h.intact t ht ext b hb)
  case gone => exact h.gone
  case job =>
    intro p stage hj
    cases he.symm.trans (h.job p stage hj).left
  case opening =>
    refine fun _ => ⟨fun t ht => (hcat t ht).right.right, fun p hp t ht hnot ext => ?_⟩
    exact hparts p hp t ht hnot ext (by cases ext <;> simp)

omit [DecidableEq R] [DecidableEq B] in
theorem location_eq_none {catalog : List (Table B)} {i : Nat} (hno : ∀ t ∈ catalog, t.id ≠ i)
    (hmis : sstIsMisplaced (manifestTier catalog cf i) location) : location = none := by
  have hnone : manifestTier catalog cf i = none := by
    unfold manifestTier
    rw [Option.map_eq_none_iff, find?_eq_none]
    intro t ht
    have := hno t (mem_filter.mp (mem_reverse.mp ht)).left
    simp [this]
  rw [hnone] at hmis
  exact Option.isNone_iff_eq_none.mp hmis

theorem sweep (hd : ∀ t ∈ known, ∀ t' ∈ known, t.id = t'.id → t = t') (h : s.Kept place partition aside known)
    (he : s.Enabled place partition (.sweep cf location i ext)) :
    (s.exec place partition aside (.sweep cf location i ext)).Kept place partition aside known := by
  obtain ⟨hop, hfam, hloc, hro, _⟩ := he
  simp only [exec]
  split
  case isFalse => exact h
  case isTrue hmis =>
    obtain ⟨hapart, hsafe⟩ := h.opening hop
    have hne : s.phase ≠ .closed := by rw [hop]; exact Phase.noConfusion
    let l₀ : Loc R := ⟨s.tiers.rootAt place location, cfDirName cf, .table i ext⟩
    -- What the sweep takes of a detached table lies in a directory of the default tier.
    have hdef {p : Part R B} {t : Table B} {e : Ext} (hp : p ∈ s.parts) (ht : t ∈ p.tables) (hnot : t ∉ s.catalog)
        (hl : l₀.name = .table t.id e) : s.InDefaultDir place s.tiers l₀ := by
      cases FileName.table.inj hl |>.left
      have hno : ∀ t' ∈ s.catalog, t'.id ≠ t.id := by
        intro t' ht' hid
        exact hnot (hd t' (h.catalog t' ht') t (h.tables p hp t ht).left hid ▸ ht')
      cases location_eq_none hno hmis
      exact ⟨rfl, cf, hfam, rfl⟩
    have hkeep {p : Part R B} {t : Table B} {e : Ext} {l : Loc R} (hp : p ∈ s.parts) (ht : t ∈ p.tables)
        (hnot : t ∉ s.catalog) (hl : l ∈ [p.home place t e, p.dest t e]) (hsafe : ¬s.InDefaultDir place s.tiers l) :
        l ≠ l₀ := by
      rintro rfl
      refine hsafe (hdef (e := e) hp ht hnot ?_)
      rcases mem_cons.mp hl with hl | hl
      · rw [hl]
        exact h.home_name hp ht e
      · rw [mem_singleton.mp hl]
        rfl
    have hf {l : Loc R} (hl : l ≠ l₀) : (s.files.erase l₀).lookup l = s.files.lookup l := by
      rw [Map.lookup_erase_eq, if_neg hl]
    refine ⟨h.catalog, h.tables, h.key, h.all, h.home, h.agree, h.shared, fun t ht => ?_,
      fun p hp t ht hnot e b hb => ?_, h.job, fun _ => ⟨hapart, fun p hp t ht hnot e => ?_⟩⟩
    · refine (h.intact t ht).of_lookup fun e _ => hf fun hl => ?_
      have hds : ∀ t ∈ s.catalog, ∀ t' ∈ s.catalog, t.id = t'.id → t = t' :=
        fun t ht t' ht' => hd t (h.catalog t ht) t' (h.catalog t' ht')
      exact not_misplaced hds ht (h.shared hne t ht) (hapart t ht) hloc hro hl.symm hmis
    · obtain ⟨l, hl, hheld, hsafe⟩ := hsafe p hp t ht hnot e
      have hsome := hheld b hb
      have hll := hkeep hp ht hnot hl hsafe
      unfold Held
      by_cases hh : p.home place t e = l₀
      · right
        have hlh : l = p.dest t e := by
          rcases mem_cons.mp hl with hl | hl
          · exact absurd (hl.trans hh) hll
          · exact mem_singleton.mp hl
        rw [hh, Map.lookup_erase_eq, if_pos rfl, ← hlh, hf hll]
        exact ⟨rfl, hsome⟩
      · rw [hf hh]
        refine (h.gone p hp t ht hnot e b hb).imp_right fun hg => ⟨hg.left, ?_⟩
        -- Nothing is at home, so the safe copy is the one that was moved aside.
        have hlh : l = p.dest t e := by
          rcases mem_cons.mp hl with hl | hl
          · rw [hl, hg.left] at hsome
            cases hsome
          · exact mem_singleton.mp hl
        rw [← hlh, hf hll]
        exact hsome
    · obtain ⟨l, hl, hheld, hsafe⟩ := hsafe p hp t ht hnot e
      exact ⟨l, hl, fun b hb => (hf (hkeep hp ht hnot hl hsafe)).trans (hheld b hb), hsafe⟩

theorem exec (hd : ∀ t ∈ known, ∀ t' ∈ known, t.id = t'.id → t = t') (h : s.Kept place partition aside known)
    (he : s.Enabled place partition e) (hs : s.Settled place e) :
    (s.exec place partition aside e).Kept place partition aside known := by
  cases e
  case call => exact h.call he
  case edit =>
    by_cases hj : ∃ p, s.job = some (p, .edit)
    · obtain ⟨p, hj⟩ := hj
      exact h.edit hj
    · simp only [State.exec]
      split
      case h_1 p hjob => exact absurd ⟨p, hjob⟩ hj
      case h_2 => exact h
  case createDir =>
    by_cases hj : ∃ p, s.job = some (p, .createDir)
    · obtain ⟨p, hj⟩ := hj
      exact h.createDir hj
    · simp only [State.exec]
      split
      case h_1 p hjob => exact absurd ⟨p, hjob⟩ hj
      case h_2 => exact h
  case rename => exact h.rename hd
  case fail => exact h.ended
  case crash =>
    exact ⟨h.catalog, h.tables, h.key, h.all, h.home, h.agree, fun hne => absurd rfl hne, h.intact, h.gone,
      fun _ _ hj => by (cases hj), fun ho => by cases ho⟩
  case «open» => exact h.open he hs
  case sweep => exact h.sweep hd he
  case opened =>
    have hp : s.phase = .opening := he
    refine ⟨h.catalog, h.tables, h.key, h.all, h.home, h.agree,
      fun _ => h.shared (by rw [hp]; exact Phase.noConfusion), h.intact, h.gone, fun p stage hj => ?_,
      fun ho => by cases ho⟩
    cases hp.symm.trans (h.job p stage hj).left

end Kept

-- In a run whose opens find no file of a detached part only in a directory of the default tier, every part
-- that `detach_part` was called for is whole, in the catalog or on disk.
theorem detached_part_whole {s₀ : State R B} (h₀ : s₀.AtRest place)
    (h : Reachable s₀ (SettledStep place partition aside) s) : ∀ p ∈ s.parts, s.Whole place p := by
  have hk : s.Kept place partition aside s₀.catalog := by
    refine h.invariant (.atRest h₀) fun s s' hst hk => ?_
    obtain ⟨e, he, hs, rfl⟩ := hst
    exact hk.exec h₀.distinct he hs
  exact fun p hp => hk.whole hp

section Examples

def spelled (backend : Backend) (root : String) : Backend × String :=
  (backend, root)

def under (cf partition : String) : (Backend × String) × String :=
  ((.disk, "db"), cfDirName cf ++ "/detached/" ++ partition)

def table : Table Nat := ⟨"a", 1, none, none, 10, some 11⟩

def klogAt (dir : String) : Loc (Backend × String) := ⟨(.disk, "db"), dir, .table 1 .klog⟩

def vlogAt (dir : String) : Loc (Backend × String) := ⟨(.disk, "db"), dir, .table 1 .vlog⟩

def atRest : State (Backend × String) Nat where
  tiers := ⟨"db", []⟩
  phase := .closed
  families := ["a"]
  catalog := [table]
  files := AList.insert (klogAt "cf-a") (some 10) (AList.insert (vlogAt "cf-a") (some 11) ∅)
  job := none
  parts := []

theorem atRest_atRest : atRest.AtRest spelled where
  phase := rfl
  job := rfl
  parts := rfl
  distinct := by simp [atRest]
  intact t ht ext b hb := by
    cases mem_singleton.mp ht
    cases ext <;> cases hb <;> decide +kernel

def exec₀ (s : State (Backend × String) Nat) : Event (Backend × String) Nat → State (Backend × String) Nat :=
  s.exec spelled (fun _ => some "p") under

def detachedThenOpened : List (Event (Backend × String) Nat) :=
  [.open ⟨"db", []⟩, .opened, .call "a" "p", .edit, .createDir, .rename, .rename, .rename, .crash, .open ⟨"db", []⟩,
    .opened]

def runOf (es : List (Event (Backend × String) Nat)) : State (Backend × String) Nat :=
  es.foldl exec₀ atRest

theorem detached_part_whole_detachedThenOpened :
    (runOf detachedThenOpened).catalog = [] ∧
    (runOf detachedThenOpened).files.lookup (klogAt "cf-a/detached/p") = some (some 10) ∧
    ∀ p ∈ (runOf detachedThenOpened).parts, (runOf detachedThenOpened).Whole spelled p := by
  have h : Reachable atRest (SettledStep spelled (fun _ => some "p") under) (runOf detachedThenOpened) :=
    Reachable.start.foldl (P := fun s e => s.Enabled spelled (fun _ => some "p") e ∧ s.Settled spelled e)
      (fun _ e he => ⟨e, he.left, he.right, rfl⟩) (by decide +kernel)
  exact ⟨by decide +kernel, by decide +kernel, detached_part_whole atRest_atRest h⟩

-- The directory cannot be created, or the process dies before the renames; the next open sweeps.
def detachedThenSwept : List (Event (Backend × String) Nat) :=
  [.open ⟨"db", []⟩, .opened, .call "a" "p", .edit, .fail, .crash, .open ⟨"db", []⟩, .sweep "a" none 1 .klog,
    .sweep "a" none 1 .vlog, .opened]

theorem detached_part_lost :
    Allowed exec₀ (Enabled spelled fun _ => some "p") atRest detachedThenSwept ∧
    (runOf detachedThenSwept).catalog = [] ∧ (runOf detachedThenSwept).parts.map Part.tables = [[table]] ∧
    (runOf detachedThenSwept).files.entries = [] := by
  decide +kernel

end Examples

end OndaDb.Parts.Detach.State

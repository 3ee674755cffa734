import OndaDb.Catalog.Basic
import OndaDb.Lib.Checks

-- What validation accepts, and what an accepted edit does, said of the catalog alone.
namespace OndaDb.Catalog

open Checks List

section

variable {α κ : Type} [DecidableEq κ] (key : α → κ) {f : α → α} {l : List α}

theorem find?_modifyFirst (hf : ∀ a, key (f a) = key a) (k k' : κ) :
    (modifyFirst (key · = k) f l).find? (key · = k') =
      if k' = k then (l.find? (key · = k)).map f else l.find? (key · = k') := by
  induction l
  case nil => split <;> rfl
  case cons a l ih =>
    rw [modifyFirst]
    by_cases ha : key a = k
    case pos =>
      simp only [ha, decide_true, ite_true, find?_cons, hf]
      by_cases hk : k = k' <;> simp [hk, Ne.symm]
    simp only [ha, decide_false, Bool.false_eq_true, ite_false, find?_cons, ih]
    by_cases hk : key a = k'
    case pos => simp [hk, show k' ≠ k from fun h => ha (hk.trans h)]
    case neg => simp [hk]

omit [DecidableEq κ] in
theorem map_modifyFirst (hf : ∀ a, key (f a) = key a) :
    (modifyFirst p f l).map key = l.map key := by
  induction l
  case nil => rfl
  case cons a l ih =>
    rw [modifyFirst]
    split <;> simp [hf, ih]

end

def CfManifest.level? (cf : CfManifest) (id : UInt64) : Option UInt32 :=
  (cf.sstables.find? (·.id = id)).map (·.level)

namespace Manifest

structure Distinct (m : Manifest) : Prop where
  names : (m.cfs.map (·.name)).Nodup
  ids : ∀ cf ∈ m.cfs, (cf.sstables.map (·.id)).Nodup

variable {m : Manifest} {name name' : String} {f : CfManifest → CfManifest}

theorem family_modifyCf (hf : ∀ cf, (f cf).name = cf.name) :
    (m.modifyCf name f).family name' = if name' = name then (m.family name).map f else m.family name' :=
  find?_modifyFirst CfManifest.name hf name name'

theorem family_some (h : m.family name = some cf) : cf ∈ m.cfs ∧ cf.name = name :=
  ⟨mem_of_find?_eq_some h, by simpa using find?_some h⟩

theorem Distinct.family_eq (h : m.Distinct) (hcf : cf ∈ m.cfs) : m.family cf.name = some cf := by
  obtain ⟨cf', hcf'⟩ : ∃ cf', m.family cf.name = some cf' :=
    Option.isSome_iff_exists.mp (find?_isSome.mpr ⟨cf, hcf, by simp⟩)
  obtain ⟨hmem, hname⟩ := family_some hcf'
  rw [hcf', inj_on_of_nodup_map h.names hmem hcf hname]

theorem family_createCf (h : m.family name = none) :
    (mutate m (.createCf name config)).family name' =
      if name' = name then some ⟨name, config, [], none⟩ else m.family name' := by
  rw [mutate, family, find?_append]
  split
  case isTrue hn => subst hn; simp [show m.cfs.find? (·.name = name') = none from h]
  case isFalse hn => simp [Ne.symm hn, family]

theorem family_dropCf :
    (mutate m (.dropCf name)).family name' = if name' = name then none else m.family name' := by
  rw [mutate, family, find?_filter]
  split
  case isTrue hn => simp [hn]
  case isFalse hn =>
    rw [family]
    congr 1
    funext cf
    by_cases hcf : cf.name = name' <;> simp [hcf, hn]

def Accepts (m : Manifest) : Op → Prop
  | .addTable cf t => ∃ f ∈ m.family cf, f.level? t.id = none
  | .removeTable cf id level => ∃ f ∈ m.family cf, f.level? id = some level
  | .updateTable cf id u => u.mask ≠ 0 ∧ ∃ f ∈ m.family cf, (f.level? id).isSome
  | .createCf name _ => m.family name = none
  | .dropCf name => ∃ f ∈ m.family name, f.sstables = []
  | .setCfConfig name _ => (m.family name).isSome
  | .setCfUnifiedId name _ => (m.family name).isSome
  | .setNextFileId v => ¬v < m.nextFileId
  | .setGlobalSeq v => ¬v < m.globalSeq
  | .setWalLayout layout => layout = .unified ∧ m.walLayout ≠ .unified
  | .setNonce _ => m.instanceNonce = none
  | .setCapability bits => bits &&& ~~~Cap.known = 0
  | .setWalFloor generation =>
    m.caps &&& Cap.walFloor ≠ 0 ∧ m.walLayout = .unified ∧ ¬generation ≤ m.walFloor
  | .removeTables cf ids => ids.Nodup ∧ ∀ id ∈ ids, ∃ f ∈ m.family cf, (f.level? id).isSome

def AcceptsAll (m : Manifest) : List Op → Prop
  | [] => True
  | op :: ops => m.Accepts op ∧ (mutate m op).AcceptsAll ops

end Manifest

structure Candidate.Tracks (c : Candidate) (m : Manifest) : Prop where
  known : ∀ name, (c.cf name).exists = (m.family name).isSome
  tables : ∀ name id, (c.cf name).tables.lookup id = (m.family name).bind (·.level? id)
  nextFileId : c.nextFileId = m.nextFileId
  globalSeq : c.globalSeq = m.globalSeq
  walLayout : c.walLayout = m.walLayout
  instanceNonce : c.instanceNonce = m.instanceNonce
  caps : c.caps = m.caps
  walFloor : c.walFloor = m.walFloor

theorem CfState.lookup_ofTables (h : (ssts.map (·.id)).Nodup) (id : UInt64) :
    (CfState.ofTables ssts).tables.lookup id = (ssts.find? (·.id = id)).map (·.level) := by
  have hl := Map.lookup_foldl_insert SstMeta.id SstMeta.level h id ∅
  exact hl.trans (Option.or_none ..)

namespace Candidate

variable {m : Manifest} (h : m.Distinct)
include h

theorem tracks_of_cf
    (hcf : ∀ name, c.cf name = ((m.family name).map fun f => CfState.ofTables f.sstables).getD .absent)
    (hn : c.nextFileId = m.nextFileId) (hg : c.globalSeq = m.globalSeq) (hl : c.walLayout = m.walLayout)
    (hi : c.instanceNonce = m.instanceNonce) (hc : c.caps = m.caps) (hw : c.walFloor = m.walFloor) :
    Tracks c m := by
  refine ⟨fun name => ?_, fun name id => ?_, hn, hg, hl, hi, hc, hw⟩ <;> rw [hcf] <;> cases hf : m.family name
  case refine_2.some f => exact CfState.lookup_ofTables (h.ids f (Manifest.family_some hf).1) id
  all_goals rfl

theorem tracks_lazy : (lazy m).Tracks m :=
  tracks_of_cf h (fun _ => rfl) rfl rfl rfl rfl rfl rfl

theorem tracks_eager : (eager m).Tracks m := by
  refine tracks_of_cf h (fun name => ?_) rfl rfl rfl rfl rfl rfl
  have hl : (eager m).cfs.lookup name = ((m.family name).map fun f => CfState.ofTables f.sstables).or none :=
    Map.lookup_foldl_insert CfManifest.name (CfState.ofTables ·.sstables) h.names name ∅
  rw [cf, hl, Option.or_none]
  rfl

end Candidate

namespace CfManifest

variable {cf : CfManifest} {t : SstMeta} {id : UInt64}

theorem level?_eq_none : cf.level? id = none ↔ ∀ s ∈ cf.sstables, s.id ≠ id := by
  simp [level?]

theorem level?_addTable (h : cf.level? t.id = none) (id : UInt64) :
    (cf.addTable t).level? id = if id = t.id then some t.level else cf.level? id := by
  rw [level?, addTable]
  split
  case isTrue h0 =>
    rw [find?_cons]
    by_cases hid : t.id = id
    case pos => simp [hid]
    case neg => simp [hid, Ne.symm hid, level?]
  case isFalse h0 =>
    rw [find?_append]
    by_cases hid : t.id = id
    case pos =>
      rw [level?, Option.map_eq_none_iff, hid] at h
      simp [h, hid]
    case neg => simp [hid, Ne.symm hid, level?]

theorem level?_retain (p : UInt64 → Bool) (id : UInt64) :
    (cf.retain (p ·.id)).level? id = if p id then cf.level? id else none := by
  rw [level?, retain, find?_filter]
  split
  case isTrue hp =>
    rw [level?]
    congr 2
    funext s
    by_cases hs : s.id = id <;> simp [hs, hp]
  case isFalse hp =>
    simp only [Option.map_eq_none_iff, find?_eq_none]
    intro s _
    by_cases hs : s.id = id <;> simp [hs, hp]

theorem level?_update (u : TableUpdate) (id id' : UInt64) :
    { cf with sstables := modifyFirst (·.id = id) u.applyTo cf.sstables }.level? id' =
      if id' = id then (cf.level? id).map (u.level.getD ·) else cf.level? id' := by
  have hfind := find?_modifyFirst SstMeta.id (f := u.applyTo) (l := cf.sstables) (fun _ => rfl) id id'
  simp only [level?, hfind]
  split
  case isTrue => simp [Function.comp_def, TableUpdate.applyTo]
  case isFalse => rfl

end CfManifest

namespace CfState

variable {tables tables' : Map UInt64 UInt32} {missing : UInt64 → OndaError} {ids : List UInt64}

theorem removeAll_ok (hn : ids.Nodup) (hp : ∀ id ∈ ids, (tables.lookup id).isSome) :
    ∃ tables', (∀ missing, removeAll tables missing ids = .ok tables') ∧
      ∀ id, tables'.lookup id = if id ∈ ids then none else tables.lookup id := by
  induction ids generalizing tables
  case nil => exact ⟨tables, fun _ => rfl, fun id => by simp⟩
  case cons id ids ih =>
    rw [nodup_cons] at hn
    have hrest (id' : UInt64) (hid' : id' ∈ ids) : ((tables.erase id).lookup id').isSome := by
      rw [Map.lookup_erase_eq, if_neg (fun h : id' = id => hn.1 (h ▸ hid'))]
      exact hp id' (mem_cons_of_mem _ hid')
    obtain ⟨tables', hr, hl⟩ := ih hn.2 hrest
    refine ⟨tables', fun missing => ?_, fun id' => ?_⟩
    · have hid := Option.isSome_iff_ne_none.mp (hp id (mem_cons_self ..))
      rw [removeAll, if_neg (mt Option.isNone_iff_eq_none.mp hid), hr]
    · rw [hl, Map.lookup_erase_eq]
      by_cases h1 : id' = id <;> by_cases h2 : id' ∈ ids <;> simp [h1, h2]

theorem of_removeAll (h : removeAll tables missing ids = .ok tables') :
    ids.Nodup ∧ ∀ id ∈ ids, (tables.lookup id).isSome := by
  induction ids generalizing tables
  case nil => simp
  case cons id ids ih =>
    rw [removeAll] at h
    split at h
    case isTrue => cases h
    case isFalse hs =>
      obtain ⟨hn, hp⟩ := ih h
      have hid : id ∉ ids := by
        intro hmem
        have := hp id hmem
        rw [Map.lookup_erase_eq, if_pos rfl] at this
        cases this
      refine ⟨nodup_cons.mpr ⟨hid, hn⟩, fun id' hid' => ?_⟩
      rcases mem_cons.mp hid' with rfl | hmem
      · exact Option.isSome_iff_ne_none.mpr (mt Option.isNone_iff_eq_none.mpr hs)
      · have := hp id' hmem
        rwa [Map.lookup_erase_eq, if_neg (fun h : id' = id => hid (h ▸ hmem))] at this

end CfState

namespace Candidate

variable {c : Candidate} {m : Manifest}

theorem cf_setCf (name name' : String) (st : CfState) :
    (c.setCf name st).cf name' = if name' = name then st else c.cf name' := by
  simp only [cf, setCf, Map.lookup_insert_eq]
  split <;> rfl

theorem Tracks.set (h : c.Tracks m) (hf : ∀ cf, (f cf).name = cf.name)
    (hst : st.exists = (m.family name).isSome)
    (ht : ∀ id, st.tables.lookup id = (m.family name).bind fun cf => (f cf).level? id) :
    (c.setCf name st).Tracks (m.modifyCf name f) where
  known name'     := by
    rw [cf_setCf, Manifest.family_modifyCf hf]
    split
    case isTrue => simp [hst]
    case isFalse => exact h.known name'
  tables name' id := by
    rw [cf_setCf, Manifest.family_modifyCf hf]
    split
    case isTrue => rw [ht, Option.bind_map]; rfl
    case isFalse => exact h.tables name' id
  __ := h

theorem Tracks.modify (h : c.Tracks m) {name : String} {st : CfState} {cf : CfManifest}
    (hcf : m.family name = some cf) (hf : ∀ cf, (f cf).name = cf.name) (hst : st.exists = true)
    (ht : ∀ id, st.tables.lookup id = (f cf).level? id) : (c.setCf name st).Tracks (m.modifyCf name f) :=
  h.set hf (hst.trans (by rw [hcf]; rfl)) fun id => (ht id).trans (by rw [hcf]; rfl)

theorem Tracks.keep (h : c.Tracks m) (hf : ∀ cf, (f cf).name = cf.name)
    (ht : ∀ cf, (f cf).sstables = cf.sstables) : c.Tracks (m.modifyCf name f) where
  known name'     := by
    rw [Manifest.family_modifyCf hf]
    split
    case isTrue hn => simp [h.known, hn]
    case isFalse => exact h.known name'
  tables name' id := by
    rw [Manifest.family_modifyCf hf]
    split
    case isTrue hn =>
      rw [h.tables, hn]
      cases m.family name <;> simp [CfManifest.level?, ht]
    case isFalse => exact h.tables name' id
  __ := h

theorem Tracks.register (h : c.Tracks m) (hn : m.family name = none) :
    (c.setCf name ⟨true, ∅⟩).Tracks (mutate m (.createCf name config)) where
  known name'     := by
    rw [cf_setCf, Manifest.family_createCf hn]
    split
    case isTrue => rfl
    case isFalse => exact h.known name'
  tables name' id := by
    rw [cf_setCf, Manifest.family_createCf hn]
    split
    case isTrue => rfl
    case isFalse => exact h.tables name' id
  __ := h

theorem Tracks.unregister (h : c.Tracks m) {name : String} {cf : CfManifest} (hcf : m.family name = some cf)
    (hs : cf.sstables = []) :
    (c.setCf name { c.cf name with «exists» := false }).Tracks (mutate m (.dropCf name)) where
  known name'     := by
    rw [cf_setCf, Manifest.family_dropCf]
    split
    case isTrue => rfl
    case isFalse => exact h.known name'
  tables name' id := by
    rw [cf_setCf, Manifest.family_dropCf]
    split
    case isTrue =>
      rw [h.tables, hcf]
      simp [CfManifest.level?, hs]
    case isFalse => exact h.tables name' id
  __ := h

theorem Tracks.exists_of_some (h : c.Tracks m) {name : String} {cf : CfManifest} (hcf : m.family name = some cf) :
    (c.cf name).exists = true := by
  rw [h.known, hcf]
  rfl

theorem Tracks.lookup_of_some (h : c.Tracks m) {name : String} {cf : CfManifest} (hcf : m.family name = some cf)
    (id : UInt64) : (c.cf name).tables.lookup id = cf.level? id := by
  rw [h.tables, hcf]
  rfl

theorem Tracks.validateOp (h : c.Tracks m) {op : Op} (ha : m.Accepts op) (i : Nat) :
    ∃ c', validateOp c i op = .ok c' ∧ c'.Tracks (mutate m op) := by
  cases op
  case addTable cf t =>
    obtain ⟨f, hf, hid⟩ := ha
    simp only [Catalog.validateOp, h.exists_of_some hf, h.lookup_of_some hf, hid]
    refine ⟨_, rfl, h.modify hf (fun _ => rfl) rfl fun id => ?_⟩
    rw [Map.lookup_insert_eq, h.lookup_of_some hf, CfManifest.level?_addTable hid]
  case removeTable cf id level =>
    obtain ⟨f, hf, hid⟩ := ha
    simp only [Catalog.validateOp, h.lookup_of_some hf, hid, ne_eq, not_true_eq_false, ite_false]
    refine ⟨_, rfl, h.modify hf (fun _ => rfl) (h.exists_of_some hf) fun id' => ?_⟩
    rw [Map.lookup_erase_eq, h.lookup_of_some hf, CfManifest.level?_retain (· ≠ id)]
    by_cases hid' : id' = id <;> simp [hid']
  case updateTable cf id u =>
    obtain ⟨hm, f, hf, hid⟩ := ha
    obtain ⟨level, hl⟩ := Option.isSome_iff_exists.mp hid
    simp only [Catalog.validateOp, hm, h.lookup_of_some hf, hl]
    refine ⟨_, rfl, h.modify hf (fun _ => rfl) (h.exists_of_some hf) fun id' => ?_⟩
    rw [Map.lookup_insert_eq, h.lookup_of_some hf, CfManifest.level?_update, hl]
    rfl
  case createCf name config =>
    have hex : (c.cf name).exists = false := by rw [h.known, ha]; rfl
    simp only [Catalog.validateOp, hex]
    exact ⟨_, rfl, h.register ha⟩
  case dropCf name =>
    obtain ⟨f, hf, hs⟩ := ha
    have hkeys : (c.cf name).tables.keys = [] := by
      refine eq_nil_iff_forall_not_mem.mpr fun id hid => ?_
      have hnone : (c.cf name).tables.lookup id = none := by
        rw [h.lookup_of_some hf, CfManifest.level?_eq_none, hs]
        simp
      exact AList.lookup_eq_none.mp hnone (AList.mem_keys.mpr hid)
    simp only [Catalog.validateOp, h.exists_of_some hf, hkeys]
    exact ⟨_, rfl, h.unregister hf hs⟩
  case setCfConfig name config =>
    have hex : (c.cf name).exists = true := (h.known name).trans ha
    simp only [Catalog.validateOp, hex]
    exact ⟨c, rfl, h.keep (fun _ => rfl) fun _ => rfl⟩
  case setNextFileId v =>
    have hle : ¬v < c.nextFileId := h.nextFileId ▸ ha
    simp only [Catalog.validateOp, hle, ite_false]
    exact ⟨_, rfl, { h with nextFileId := rfl }⟩
  case setGlobalSeq v =>
    have hle : ¬v < c.globalSeq := h.globalSeq ▸ ha
    simp only [Catalog.validateOp, hle, ite_false]
    exact ⟨_, rfl, { h with globalSeq := rfl }⟩
  case setWalLayout layout =>
    obtain ⟨rfl, hl⟩ := ha
    simp only [Catalog.validateOp, h.walLayout, hl]
    exact ⟨_, rfl, { h with walLayout := rfl }⟩
  case setNonce nonce =>
    have hn : c.instanceNonce = none := h.instanceNonce.trans ha
    simp only [Catalog.validateOp, hn]
    exact ⟨_, rfl, { h with instanceNonce := rfl }⟩
  case setCapability bits =>
    have hb : Cap.check bits = .ok () := if_neg (not_not.mpr ha)
    simp only [Catalog.validateOp, hb]
    exact ⟨_, rfl, { h with caps := by rw [h.caps]; rfl }⟩
  case removeTables cf ids =>
    obtain ⟨hn, hp⟩ := ha
    have hpresent (id : UInt64) (hid : id ∈ ids) : ((c.cf cf).tables.lookup id).isSome := by
      obtain ⟨f, hf, hl⟩ := hp id hid
      rwa [h.lookup_of_some hf]
    obtain ⟨tables, hr, hl⟩ := CfState.removeAll_ok hn hpresent
    refine ⟨c.setCf cf { c.cf cf with tables }, by simp only [Catalog.validateOp, hr]; rfl, ?_⟩
    refine h.set (fun _ => rfl) (h.known cf) fun id => ?_
    rw [hl, h.tables]
    cases hf : m.family cf
    case none => simp
    case some f =>
      have hr := f.level?_retain (· ∉ ids) id
      by_cases hid : id ∈ ids <;> simpa [hid] using hr.symm
  case setCfUnifiedId name id =>
    have hex : (c.cf name).exists = true := (h.known name).trans ha
    simp only [Catalog.validateOp, hex]
    exact ⟨c, rfl, h.keep (fun _ => rfl) fun _ => rfl⟩
  case setWalFloor generation =>
    obtain ⟨hc, hl, hg⟩ := ha
    simp only [Catalog.validateOp, h.caps, hc, h.walLayout, hl, h.walFloor, hg]
    exact ⟨_, rfl, { h with walFloor := rfl, walLayout := hl.symm, caps := rfl }⟩

theorem Tracks.accepts (h : c.Tracks m) {op : Op} {i : Nat} {c' : Candidate}
    (hv : Catalog.validateOp c i op = .ok c') : m.Accepts op := by
  have hfam {name : String} (hex : (c.cf name).exists = true) : ∃ f, m.family name = some f :=
    Option.isSome_iff_exists.mp ((h.known name).symm.trans hex)
  have htab {name : String} {id : UInt64} {level : UInt32} (hl : (c.cf name).tables.lookup id = some level) :
      ∃ f ∈ m.family name, f.level? id = some level :=
    Option.bind_eq_some_iff.mp ((h.tables name id).symm.trans hl)
  cases op <;> simp only [Catalog.validateOp, guard_eq_ok] at hv
  case addTable cf t =>
    obtain ⟨hex, hid, -⟩ := hv
    obtain ⟨f, hf⟩ := hfam (by simpa using hex)
    rw [h.lookup_of_some hf, Bool.not_eq_true, Option.isSome_eq_false_iff, Option.isNone_iff_eq_none] at hid
    exact ⟨f, hf, hid⟩
  case removeTable cf id level =>
    split at hv
    case h_1 => cases hv
    case h_2 found hl => exact htab (not_not.mp (guard_eq_ok.mp hv).1 ▸ hl)
  case updateTable cf id u =>
    obtain ⟨hm, hv⟩ := hv
    split at hv
    case h_1 => cases hv
    case h_2 found hl =>
      obtain ⟨f, hf, hl⟩ := htab hl
      exact ⟨hm, f, hf, Option.isSome_of_mem hl⟩
  case createCf name config =>
    have hex := hv.1
    rwa [h.known, Bool.not_eq_true, Option.isSome_eq_false_iff, Option.isNone_iff_eq_none] at hex
  case dropCf name =>
    obtain ⟨hex, hk, -⟩ := hv
    obtain ⟨f, hf⟩ := hfam (by simpa using hex)
    refine ⟨f, hf, eq_nil_iff_forall_not_mem.mpr fun s hs => ?_⟩
    have hnone : (c.cf name).tables.lookup s.id = none := by
      rw [AList.lookup_eq_none, AList.mem_keys, length_eq_zero_iff.mp (not_not.mp hk)]
      simp
    rw [h.lookup_of_some hf, CfManifest.level?_eq_none] at hnone
    exact hnone s hs rfl
  case setCfConfig name config => exact (h.known name).symm.trans (by simpa using hv.1)
  case setNextFileId v =>
    have hl := hv.1
    rwa [h.nextFileId] at hl
  case setGlobalSeq v =>
    have hl := hv.1
    rwa [h.globalSeq] at hl
  case setWalLayout layout =>
    have hl := hv.1
    rwa [not_or, not_not, h.walLayout] at hl
  case setNonce nonce =>
    have hn := hv.1
    rwa [h.instanceNonce, Bool.not_eq_true, Option.isSome_eq_false_iff, Option.isNone_iff_eq_none] at hn
  case setCapability bits =>
    rw [Cap.check] at hv
    split at hv
    case isTrue => cases hv
    case isFalse hb => exact not_not.mp hb
  case removeTables cf ids =>
    cases hr : CfState.removeAll (c.cf cf).tables
      (fun id => precondition i s!"RemoveTables: table {id.toNat} absent from {cf.quote}") ids
    case error e =>
      rw [hr] at hv
      cases hv
    case ok tables =>
      obtain ⟨hn, hp⟩ := CfState.of_removeAll hr
      refine ⟨hn, fun id hid => ?_⟩
      obtain ⟨level, hl⟩ := Option.isSome_iff_exists.mp (hp id hid)
      obtain ⟨f, hf, hl⟩ := htab hl
      exact ⟨f, hf, Option.isSome_of_mem hl⟩
  case setCfUnifiedId name id => exact (h.known name).symm.trans (by simpa using hv.1)
  case setWalFloor generation =>
    obtain ⟨hc, hl, hg, -⟩ := hv
    rw [h.caps] at hc
    rw [h.walLayout] at hl
    rw [h.walFloor] at hg
    exact ⟨hc, not_not.mp hl, hg⟩

theorem Tracks.validate (h : c.Tracks m) (ha : m.AcceptsAll ops) (i : Nat) :
    ∃ c', Catalog.validate c i ops = .ok c' ∧ c'.Tracks (ops.foldl mutate m) := by
  induction ops generalizing c m i
  case nil => exact ⟨c, rfl, h⟩
  case cons op ops ih =>
    obtain ⟨c₁, hv, h₁⟩ := h.validateOp ha.1 i
    obtain ⟨c₂, hv₂, h₂⟩ := ih h₁ ha.2 (i + 1)
    exact ⟨c₂, by rw [Catalog.validate, hv]; exact hv₂, h₂⟩

theorem Tracks.acceptsAll (h : c.Tracks m) (hv : Catalog.validate c i ops = .ok c') : m.AcceptsAll ops := by
  induction ops generalizing c m i
  case nil => trivial
  case cons op ops ih =>
    cases hop : Catalog.validateOp c i op
    case error e =>
      rw [Catalog.validate, hop] at hv
      cases hv
    case ok c₁ =>
      rw [Catalog.validate, hop] at hv
      have ha := h.accepts hop
      obtain ⟨c₂, hv₂, h₂⟩ := h.validateOp ha i
      rw [hop, Except.ok.injEq] at hv₂
      exact ⟨ha, ih (hv₂ ▸ h₂) hv⟩

end Candidate

end OndaDb.Catalog

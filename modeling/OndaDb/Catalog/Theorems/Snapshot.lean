import OndaDb.Catalog.Snapshot
import OndaDb.Catalog.Theorems.Codec

namespace OndaDb.Catalog

open Encoding Reader List

-- A table that a database with these capabilities writes: no stamp and no range summary before their
-- bit is durable, and a declared capability word within the database's own.
def SstMeta.Sound (caps : UInt64) (t : SstMeta) : Prop :=
  (t.lastCompactionTime.isSome → caps &&& Cap.periodicAge ≠ 0) ∧
  (t.rangeCount = 0 ∧ t.rangeMinSeq = 0 ∧ t.rangeMaxSeq = 0 ∧ t.rangeMinKey = none ∧ t.rangeMaxKey = none ∨
    t.rangeCount ≠ 0 ∧ caps &&& Cap.rangeDeletes ≠ 0 ∧ t.rangeMinSeq ≤ t.rangeMaxSeq ∧
    (∃ k ∈ t.rangeMinKey, k ≠ []) ∧ ∃ k ∈ t.rangeMaxKey, k ≠ []) ∧
  ∀ w ∈ t.tableCaps, w ≠ 0 ∧ w &&& ~~~caps = 0

section

variable {e : Errs} {caps : UInt64}

theorem reads_flagged (enc : α → Bytes) (h : ∀ a ∈ o, Decodes r (enc a) a) (hb : b = o.isSome) :
    Decodes (Cursor.flagged b r) (o.elim [] enc) o := by
  subst hb
  cases o
  case none => exact Reads.pure none
  case some a => exact (h a rfl).map some

theorem reads_time (t : Int64) : Decodes Cursor.time (SstMeta.appendTime t) t := by
  have h := (reads_uvar (e := Cursor.errs) t.toUInt64).map UInt64.toInt64
  rwa [Int64.toInt64_toUInt64] at h

namespace SstMeta

theorem flag_bits (t : SstMeta) (caps : UInt64) :
    decide (t.flags caps &&& ManifestFile.partition ≠ 0) = t.partition.isSome ∧
    decide (t.flags caps &&& ManifestFile.tier ≠ 0) = t.tier.isSome ∧
    decide (t.flags caps &&& ManifestFile.object ≠ 0) = t.object.isSome ∧
    decide (t.flags caps &&& ManifestFile.maxEntryTime ≠ 0) = t.maxEntryTime.isSome ∧
    decide (t.flags caps &&& ManifestFile.lastCompactionTime ≠ 0) = (t.age caps).isSome ∧
    decide (t.flags caps &&& ManifestFile.range ≠ 0) = t.hasRange caps ∧
    decide (t.flags caps &&& ManifestFile.tableCaps ≠ 0) = t.tableCaps.isSome ∧
    t.flags caps &&& ~~~ManifestFile.sstKnown = 0 := by
  rw [flags]
  generalize t.partition.isSome = a
  generalize t.tier.isSome = b
  generalize t.object.isSome = c
  generalize t.maxEntryTime.isSome = d
  generalize (t.age caps).isSome = e
  generalize t.hasRange caps = f
  generalize t.tableCaps.isSome = g
  revert a b c d e f g
  decide

theorem Sound.age_eq {t : SstMeta} (h : t.Sound caps) : t.age caps = t.lastCompactionTime := by
  rw [age]
  cases ht : t.lastCompactionTime
  case none => rfl
  case some x => simp [h.1 (by rw [ht]; rfl)]

def range? (t : SstMeta) (caps : UInt64) : Option Cursor.Range :=
  if t.hasRange caps
  then some ⟨t.rangeCount, t.rangeMinSeq, t.rangeMaxSeq, t.rangeMinKey.getD [], t.rangeMaxKey.getD []⟩
  else none

theorem isSome_range? (t : SstMeta) : (t.range? caps).isSome = t.hasRange caps := by
  rw [range?]
  split <;> simp [*]

theorem elim_range? (t : SstMeta) :
    (t.range? caps).elim [] (fun _ => t.appendRange) = if t.hasRange caps then t.appendRange else [] := by
  rw [range?]
  split <;> rfl

theorem Sound.range_eq {t : SstMeta} (h : t.Sound caps) :
    (t.range? caps).elim 0 (·.count) = t.rangeCount ∧ (t.range? caps).elim 0 (·.minSeq) = t.rangeMinSeq ∧
    (t.range? caps).elim 0 (·.maxSeq) = t.rangeMaxSeq ∧ (t.range? caps).map (·.minKey) = t.rangeMinKey ∧
    (t.range? caps).map (·.maxKey) = t.rangeMaxKey := by
  rcases h.2.1 with ⟨hc, hmin, hmax, hk, hk'⟩ | ⟨hc, hcaps, -, ⟨k, hk, -⟩, k', hk', -⟩
  · have hr : ¬t.hasRange caps := by simp [hasRange, hc]
    simp [range?, hr, hc, hmin, hmax, hk, hk']
  · rw [Option.mem_def] at hk hk'
    have hr : t.hasRange caps := by
      simp only [hasRange, decide_eq_true_eq]
      exact ⟨UInt64.pos_iff_ne_zero.mpr hc, hcaps⟩
    simp [range?, hr, hk, hk']

end SstMeta

namespace Cursor

theorem reads_gated (hbit : caps &&& bit ≠ 0) (h : Decodes r b a) : Decodes (gated caps bit why r) b a := by
  rwa [gated, if_neg hbit]

theorem reads_range {t : SstMeta} (h : t.Sound caps) {x : Range} (hx : x ∈ t.range? caps) :
    Decodes (gated caps Cap.rangeDeletes "range summary without CAP_RANGE_DELETES" range) t.appendRange x := by
  rw [SstMeta.range?, Option.mem_def, Option.ite_none_right_eq_some, Option.some.injEq] at hx
  obtain ⟨hr, rfl⟩ := hx
  simp only [SstMeta.hasRange, decide_eq_true_eq] at hr
  rcases h.2.1 with h0 | ⟨hc, hcaps, hle, ⟨k, hk, hkn⟩, k', hk', hkn'⟩
  · exact absurd hr.1 (by simp [h0.1])
  · rw [Option.mem_def] at hk hk'
    apply reads_gated hr.2
    apply (reads_uvar _).bind
    apply (reads_uvar _).bind
    apply (reads_uvar _).bind
    apply (reads_bytes _).bind
    apply (reads_bytes _).last
    rw [if_neg]
    simp only [hk, hk', Option.getD_some, not_or]
    exact ⟨hc, hkn, hkn', UInt64.not_lt.mpr hle⟩

theorem reads_age {t : SstMeta} {x : Int64} (hx : x ∈ t.age caps) :
    Decodes (gated caps Cap.periodicAge "age stamp without CAP_PERIODIC_AGE" time) (SstMeta.appendTime x) x := by
  rw [SstMeta.age, Option.mem_def, Option.filter_eq_some_iff, decide_eq_true_eq] at hx
  exact reads_gated hx.2 (reads_time x)

theorem reads_capsWord (h : w ≠ 0 ∧ w &&& ~~~caps = 0) :
    Decodes (capsWord caps) (appendU64Var w) w := by
  apply (reads_uvar w).last
  rw [if_neg (not_or.mpr ⟨h.1, not_not.mpr h.2⟩)]

theorem reads_sstable {t : SstMeta} (h : t.Sound caps) : Decodes (sstable caps) (t.encode caps) t := by
  obtain ⟨hp, ht, ho, hm, hl, hr, hc, hk⟩ := t.flag_bits caps
  apply (reads_uvar _).bind
  apply (reads_u32FromUvar _ _).bind
  apply (reads_uvar _).bind
  apply (reads_uvar _).bind
  apply (reads_uvar _).bind
  apply (reads_uvar _).bind
  apply (reads_uvar _).bind
  apply (reads_bytes _).bind
  apply (reads_bytes _).bind
  apply (reads_uvar _).bind
  rw [if_neg (not_not.mpr hk), ← t.elim_range?]
  apply (reads_flagged _ (fun s _ => reads_string s) hp).bind
  apply (reads_flagged _ (fun s _ => reads_string s) ht).bind
  apply (reads_flagged _ (fun s _ => reads_string s) ho).bind
  apply (reads_flagged _ (fun s _ => reads_time s) hm).bind
  apply (reads_flagged _ (fun _ hx => reads_age hx) hl).bind
  apply (reads_flagged (fun _ => t.appendRange) (fun _ hx => reads_range h hx)
    (hr.trans t.isSome_range?.symm)).bind
  apply (reads_flagged _ (fun w hw => reads_capsWord (h.2.2 w hw)) hc).last
  obtain ⟨h1, h2, h3, h4, h5⟩ := h.range_eq
  rw [h.age_eq, h1, h2, h3, h4, h5]

end Cursor

def CfManifest.stored (cf : CfManifest) : CfManifest :=
  { cf with unifiedId := cf.storedUnifiedId }

theorem Cursor.reads_unifiedId {cf : CfManifest} {id : UInt64} (h : id ∈ cf.storedUnifiedId) :
    Decodes (unifiedId cf.name) (putU64Word id) id := by
  rw [CfManifest.storedUnifiedId, Option.mem_def, Option.filter_eq_some_iff, decide_eq_true_eq] at h
  apply (reads_u64le id).last
  rw [if_neg h.2]

theorem one_le_length_sst (t : SstMeta) : 1 ≤ (t.encode caps).length := by
  rw [SstMeta.encode, length_append]
  exact (one_le_length_appendUvarint _).trans (Nat.le_add_right ..)

theorem one_le_length_cf (cf : CfManifest) : 1 ≤ (cf.encode caps).length := by
  rw [CfManifest.encode, length_append]
  refine le_trans ?_ (Nat.le_add_right ..)
  split <;> exact one_le_length_appendUvarint _

theorem Cursor.reads_columnFamily {cf : CfManifest} (h : ∀ t ∈ cf.sstables, t.Sound caps) :
    Decodes (columnFamily caps) (cf.encode caps) cf.stored := by
  have hflag : (if cf.storedUnifiedId.isSome then appendUvarint 1 else appendUvarint 0) =
      appendU64Var (if cf.storedUnifiedId.isSome then 1 else 0) := by split <;> rfl
  rw [CfManifest.encode, hflag]
  apply (reads_uvar _).bind
  rw [if_neg (by split <;> decide)]
  apply (reads_string _).bind
  apply (reads_bytes _).bind
  apply (reads_flagged _ (fun _ hx => reads_unifiedId hx) (by split <;> simp [*])).bind
  exact reads_many (fun t _ => one_le_length_sst t) (fun _ t ht => reads_sstable (h t ht))
    (by rw [map_id']; rfl)

end

namespace Manifest

structure Sound (m : Manifest) : Prop where
  caps : m.caps &&& ~~~Cap.known = 0
  cursor : m.appliedThrough.toNat + 1 = m.nextEditId.toNat
  floor : m.walFloor ≠ 0 → m.caps &&& Cap.walFloor ≠ 0 ∧ m.walLayout = .unified
  tables : ∀ cf ∈ m.cfs, ∀ t ∈ cf.sstables, t.Sound m.caps

def stored (m : Manifest) : Manifest :=
  { m with cfs := m.cfs.map CfManifest.stored }

theorem flag_bits (m : Manifest) :
    decide (m.dbFlags &&& ManifestFile.unifiedWal ≠ 0) = decide (m.walLayout = .unified) ∧
    decide (m.dbFlags &&& ManifestFile.instanceNonce ≠ 0) = m.instanceNonce.isSome ∧
    decide (m.dbFlags &&& ManifestFile.editLog ≠ 0) = m.hasEditLog ∧
    decide (m.dbFlags &&& ManifestFile.walFloor ≠ 0) = decide (m.walFloor ≠ 0) ∧
    m.dbFlags &&& ~~~ManifestFile.dbKnown = 0 := by
  rw [dbFlags]
  generalize m.instanceNonce.isSome = b
  generalize m.hasEditLog = c
  by_cases h₁ : m.walLayout = .unified <;> by_cases h₂ : m.walFloor = 0 <;> simp only [h₁, h₂, ne_eq, ite_true,
    ite_false, not_true_eq_false, not_false_eq_true] <;> revert b c <;> decide

def cursor? (m : Manifest) : Option Cursor.EditCursor :=
  if m.hasEditLog then some { m with } else none

theorem isSome_cursor? (m : Manifest) : m.cursor?.isSome = m.hasEditLog := by
  rw [cursor?]
  split <;> simp [*]

theorem cursor?_eq (m : Manifest) :
    m.cursor?.elim 0 (·.generation) = m.generation ∧ m.cursor?.elim 0 (·.appliedThrough) = m.appliedThrough ∧
    m.cursor?.elim 1 (·.nextEditId) = m.nextEditId := by
  rw [cursor?]
  split
  case isTrue => exact ⟨rfl, rfl, rfl⟩
  case isFalse h =>
    simp only [hasEditLog, ne_eq, decide_eq_true_eq, not_or, not_not] at h
    exact ⟨h.1.symm, h.2.1.symm, h.2.2.symm⟩

def floor? (m : Manifest) : Option UInt64 :=
  if m.walFloor ≠ 0 then some m.walFloor else none

theorem isSome_floor? (m : Manifest) : m.floor?.isSome = decide (m.walFloor ≠ 0) := by
  rw [floor?]
  split <;> simp [*]

theorem getD_floor? (m : Manifest) : m.floor?.getD 0 = m.walFloor := by
  rw [floor?]
  split <;> simp_all

theorem Sound.reads_editCursor {m : Manifest} (h : m.Sound) (hc : c ∈ m.cursor?) :
    Decodes Cursor.editCursor
      (putU64Word m.generation ++ (putU64Word m.appliedThrough ++ putU64Word m.nextEditId)) c := by
  rw [cursor?, Option.mem_def, Option.ite_none_right_eq_some, Option.some.injEq] at hc
  obtain ⟨hl, rfl⟩ := hc
  apply (reads_u64le _).bind
  apply (reads_u64le _).bind
  apply (reads_u64le _).last
  rw [if_neg (not_not.mpr h.cursor), if_neg]
  rintro ⟨hg, ha⟩
  have hnext : m.nextEditId = 1 := by
    apply UInt64.toNat_inj.mp
    rw [← h.cursor, ha]
    rfl
  simp [hasEditLog, hg, ha, hnext] at hl

theorem Sound.reads_floor {m : Manifest} (h : m.Sound) {g : UInt64} (hg : g ∈ m.floor?) :
    Decodes (Cursor.floor m.caps m.dbFlags) (putU64Word g) g := by
  rw [floor?, Option.mem_def, Option.ite_none_right_eq_some, Option.some.injEq] at hg
  obtain ⟨hne, rfl⟩ := hg
  obtain ⟨hcaps, hlayout⟩ := h.floor hne
  have hflag : m.dbFlags &&& ManifestFile.unifiedWal ≠ 0 := by
    have hbit := m.flag_bits.1
    rwa [hlayout, decide_eq_decide, iff_true_right rfl] at hbit
  rw [Cursor.floor, if_neg hcaps, if_neg hflag]
  apply (reads_u64le _).last
  rw [if_neg hne]

theorem Sound.reads_manifest {m : Manifest} (h : m.Sound) : Decodes Cursor.manifest m.content m.stored := by
  obtain ⟨hunified, hnonce, hlog, hfloor, hknown⟩ := m.flag_bits
  have hwaves : m.caps &&& Cap.waves08Bodies = 0 := by
    have hsub : Cap.waves08Bodies = ~~~Cap.known &&& Cap.waves08Bodies := by decide
    rw [hsub, ← UInt64.and_assoc, h.caps, UInt64.zero_and]
  have hcursor : (if m.hasEditLog then
      putU64Word m.generation ++ (putU64Word m.appliedThrough ++ putU64Word m.nextEditId) else []) =
      m.cursor?.elim [] fun _ =>
        putU64Word m.generation ++ (putU64Word m.appliedThrough ++ putU64Word m.nextEditId) := by
    rw [cursor?]
    split <;> rfl
  have hgen : (if m.walFloor ≠ 0 then putU64Word m.walFloor else []) = m.floor?.elim [] putU64Word := by
    rw [floor?]
    split <;> rfl
  rw [content, hcursor, hgen]
  apply (reads_u32le _).bind
  rw [if_neg (not_not.mpr rfl)]
  apply (reads_u64le _).bind
  rw [if_neg (not_not.mpr hwaves), Cap.check, if_neg (not_not.mpr h.caps)]
  apply Reads.bind (b := []) (a := ()) (fun _ _ => rfl)
  apply (reads_u32le _).bind
  rw [if_neg (not_not.mpr hknown)]
  apply (reads_u64le _).bind
  apply (reads_u64le _).bind
  apply (reads_flagged _ (fun x _ => reads_u64le x) hnonce).bind
  apply (reads_flagged _ (fun _ hx => h.reads_editCursor hx) (hlog.trans m.isSome_cursor?.symm)).bind
  apply (reads_flagged _ (fun _ hx => h.reads_floor hx) (hfloor.trans m.isSome_floor?.symm)).bind
  apply reads_many (fun cf _ => one_le_length_cf cf) fun _ cf hcf => Cursor.reads_columnFamily (h.tables cf hcf)
  obtain ⟨h1, h2, h3⟩ := m.cursor?_eq
  have hlayout : (if m.walLayout = .unified then WalLayout.unified else .perColumnFamily) = m.walLayout := by
    cases m.walLayout <;> rfl
  simp only [hunified, decide_eq_true_eq, hlayout, h1, h2, h3, getD_floor?, stored]

theorem Sound.decode_encode {m : Manifest} (h : m.Sound) (hlen : (m.encode crc).length < 2 ^ 64) :
    decode crc (m.encode crc) = .ok m.stored := by
  have hcontent : 32 ≤ m.content.length := by
    simp only [content, length_append, putU32, putU64Word, putU64, length_putLe]
    omega
  have hlength : (m.encode crc).length = 8 + m.content.length + 4 := by
    simp only [encode, putU32, length_append, length_putLe]
    rfl
  have hsplit : (m.encode crc).length - 4 = (ManifestFile.magic ++ m.content).length := by
    rw [hlength, length_append]
    rfl
  have hbody : (m.encode crc).take ((m.encode crc).length - 4) = ManifestFile.magic ++ m.content := by
    rw [hsplit]
    exact take_left' rfl
  have hcrc : (m.encode crc).drop ((m.encode crc).length - 4) =
      putU32 (crc (ManifestFile.magic ++ m.content)).toNat := by
    rw [hsplit]
    exact drop_left' rfl
  have h4 : readLe ((m.encode crc).take 4) ≠ ManifestFile.onda09Magic := by
    simp [encode, ManifestFile.magic, readLe, ManifestFile.onda09Magic]
  have hmagic : (m.encode crc).take 8 = ManifestFile.magic := by simp [encode, ManifestFile.magic]
  have hread := h.reads_manifest.exact (by omega)
  simp only [decode, hbody, hcrc, hmagic, readLe_putU32]
  rw [if_neg (fun hx => h4 hx.2), if_neg (not_or.mpr ⟨by omega, not_not.mpr rfl⟩),
    if_neg (by rw [hlength, ManifestFile.headerLen]; omega), if_neg (not_not.mpr rfl),
    drop_left' (by rfl), hread]
  rfl

end Manifest

end OndaDb.Catalog

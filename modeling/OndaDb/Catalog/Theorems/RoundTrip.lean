import Mathlib.Algebra.Order.Group.Nat
import OndaDb.Catalog.Theorems.Snapshot
import OndaDb.Delta.Theorems.Varint

-- What the decoders accept is in the form that the encoders write, up to the length of its numbers.
namespace OndaDb.Catalog

open Encoding Reader List

abbrev Spends (enc : α → Bytes) (r : Decoder α) : Prop :=
  Ensures (fun n a => (enc a).length ≤ n) r

section

variable {e : Errs}

theorem ensures_take (k : Nat) : Ensures (fun n b => b.length = k ∧ k ≤ n) (take e k) := by
  intro b a rest h
  rw [take] at h
  split at h
  case isTrue => cases h
  case isFalse hk =>
    cases h
    refine ⟨k, ?_, length_take_of_le (Nat.le_of_not_lt hk), le_rfl⟩
    rw [length_drop]
    omega

theorem ensures_word (k : Nat) : Ensures (fun n _ => k ≤ n) (word e k) :=
  (ensures_take k).map fun _ _ h => h.2

theorem spends_u64le : Spends putU64Word (u64le e) :=
  (ensures_word 8).map fun _ _ h => by rwa [putU64Word, putU64, length_putLe]

theorem ensures_u32le : Ensures (fun n _ => 4 ≤ n) (u32le e) :=
  (ensures_word 4).map fun _ _ h => h

theorem spends_uvar : Spends appendU64Var (uvar e) := by
  intro b a rest h
  rw [uvar] at h
  split at h
  case h_1 => cases h
  case h_2 x r hx =>
    cases h
    obtain ⟨p, rfl, hlt, hp⟩ := uvarint_longForm hx
    refine ⟨p.length, by rw [length_append], ?_⟩
    change (appendUvarint _).length ≤ _
    rw [UInt64.toNat_ofNat_of_lt' hlt]
    exact hp.length_le

theorem spends_signed : Spends appendSigned (signed e) := by
  intro b a rest h
  rw [signed] at h
  split at h
  case h_1 => cases h
  case h_2 x r hx =>
    cases h
    obtain ⟨p, rfl, hle, hlt, hp⟩ := varint_longForm hx
    refine ⟨p.length, by rw [length_append], ?_⟩
    change (appendVarint _).length ≤ _
    rw [Int64.toInt_ofInt_of_le hle hlt]
    exact hp.length_le

theorem spends_u32FromUvar (tooBig : UInt64 → OndaError) : Spends appendU32Var (u32FromUvar e tooBig) := by
  apply spends_uvar.bind
  intro n v hv
  split
  case isFalse => exact .throw _
  case isTrue hlt =>
    apply Ensures.pure
    rwa [appendU32Var, UInt64.toNat_toUInt32, Nat.mod_eq_of_lt hlt]

theorem ensures_byte : Ensures (fun n _ => 1 ≤ n) (byte e) :=
  (ensures_take 1).bind fun _ _ h => .pure h.2

theorem spends_bytes : Spends appendBytes (bytes e) := by
  apply spends_uvar.bind
  intro n c hn
  apply (ensures_take c.toNat).mono
  rintro m b ⟨hb, hm⟩
  rw [appendU64Var] at hn
  rw [appendBytes, length_append, hb]
  omega

theorem utf8_of_fromUTF8 (h : String.fromUTF8? ⟨raw.toArray⟩ = some s) :
    utf8 s = raw := by
  rw [String.fromUTF8?] at h
  split at h
  case isTrue => cases h; rfl
  case isFalse => cases h

theorem spends_string : Spends appendString (string e) := by
  apply spends_bytes.bind
  intro n raw hn
  split
  case h_1 => exact .throw _
  case h_2 s hs =>
    apply Ensures.pure
    rwa [appendString, utf8_of_fromUTF8 hs]

theorem spends_optional (h : Spends enc r) :
    Spends (appendOpt enc) (optional e tag r) := by
  apply ensures_byte.bind
  intro n x hn
  split
  case h_1 => exact .pure hn
  case h_2 =>
    refine h.map fun m a hm => ?_
    rw [appendOpt, length_cons]
    omega
  case h_3 => exact .throw _

end

section

variable {i : Nat}

theorem ensures_sstMeta : Ensures (fun n t => (appendSstMeta t).length ≤ n ∧ t.logged = t) (Cur.sstMeta i) := by
  refine spends_uvar.bind fun _ _ _ => (spends_u32FromUvar _).bind fun _ _ _ => spends_uvar.bind fun _ _ _ =>
    spends_uvar.bind fun _ _ _ => spends_uvar.bind fun _ _ _ => spends_uvar.bind fun _ _ _ =>
    spends_uvar.bind fun _ _ _ => spends_bytes.bind fun _ _ _ => spends_bytes.bind fun _ _ _ =>
    (spends_optional spends_string).bind fun _ _ _ => (spends_optional spends_string).bind fun _ _ _ =>
    (spends_optional spends_signed).bind fun _ _ _ => (spends_optional spends_string).bind fun _ _ _ =>
    (spends_optional spends_signed).bind fun _ _ _ => spends_uvar.bind fun _ _ _ =>
    spends_uvar.bind fun _ _ _ => spends_uvar.bind fun _ _ _ => (spends_optional spends_bytes).bind fun _ _ _ =>
    (spends_optional spends_bytes).bind fun _ _ _ =>
    .pure ⟨?_, rfl⟩
  simp only [appendSstMeta, length_append, Nat.add_zero]
  gcongr

theorem ensures_masked {m bit : UInt64} {r : Decoder α} (h : Spends enc r) :
    Ensures (fun n o => (o.elim [] enc).length ≤ n ∧ (o.isSome ↔ m &&& bit ≠ 0)) (Cur.masked m bit r) := by
  rw [Cur.masked]
  split
  case isTrue hb => exact h.map fun n a hn => ⟨hn, iff_of_true rfl hb⟩
  case isFalse hb => exact .pure ⟨le_rfl, iff_of_false (by simp) hb⟩

theorem and_or_left (x y z : UInt64) : x &&& (y ||| z) = x &&& y ||| x &&& z := by
  apply UInt64.toNat_inj.mp
  simp only [UInt64.toNat_and, UInt64.toNat_or, Nat.and_or_distrib_left]

theorem exists_bit {m : UInt64} (h : m ≠ 0) (hm : m &&& ~~~0x3F = 0) :
    m &&& 0x01 ≠ 0 ∨ m &&& 0x02 ≠ 0 ∨ m &&& 0x04 ≠ 0 ∨ m &&& 0x08 ≠ 0 ∨ m &&& 0x10 ≠ 0 ∨ m &&& 0x20 ≠ 0 := by
  by_contra hbits
  simp only [not_or, not_not] at hbits
  obtain ⟨h1, h2, h3, h4, h5, h6⟩ := hbits
  apply h
  calc m
    _ = m &&& (0x01 ||| 0x02 ||| 0x04 ||| 0x08 ||| 0x10 ||| 0x20 ||| ~~~0x3F) := by
      rw [show (0x01 ||| 0x02 ||| 0x04 ||| 0x08 ||| 0x10 ||| 0x20 ||| ~~~0x3F : UInt64) = -1 by decide,
        UInt64.and_neg_one]
    _ = 0 := by simp only [and_or_left, h1, h2, h3, h4, h5, h6, hm, UInt64.or_self]

theorem TableUpdate.mask_ne_zero {u : TableUpdate}
    (h : u.level.isSome ∨ u.tier.isSome ∨ u.object.isSome ∨ u.partition.isSome ∨ u.maxEntryTime.isSome ∨
      u.lastCompactionTime.isSome) : u.mask ≠ 0 := by
  intro hz
  have hbits := u.mask_bits
  simp only [hz, UInt64.zero_and, ne_eq, not_true_eq_false, false_iff] at hbits
  obtain ⟨h1, h2, h3, h4, h5, h6, -⟩ := hbits
  simp [h1, h2, h3, h4, h5, h6] at h

theorem ensures_tableUpdate {m : UInt64} (h : m ≠ 0) (hm : m &&& ~~~0x3F = 0) :
    Ensures (fun n u => u.append.length ≤ n ∧ u.mask ≠ 0) (Cur.tableUpdate i m) := by
  refine (ensures_masked (spends_u32FromUvar _)).bind fun n₁ level h₁ => ?_
  refine (ensures_masked (spends_optional spends_string)).bind fun n₂ tier h₂ => ?_
  refine (ensures_masked (spends_optional spends_string)).bind fun n₃ object h₃ => ?_
  refine (ensures_masked (spends_optional spends_string)).bind fun n₄ partition h₄ => ?_
  refine (ensures_masked (spends_optional spends_signed)).bind fun n₅ maxEntryTime h₅ => ?_
  refine (ensures_masked (spends_optional spends_signed)).bind fun n₆ lastCompactionTime h₆ => ?_
  refine .pure ⟨?_, ?_⟩
  · obtain ⟨h₁, -⟩ := h₁
    obtain ⟨h₂, -⟩ := h₂
    obtain ⟨h₃, -⟩ := h₃
    obtain ⟨h₄, -⟩ := h₄
    obtain ⟨h₅, -⟩ := h₅
    obtain ⟨h₆, -⟩ := h₆
    simp only [TableUpdate.append, length_append, Nat.add_zero]
    gcongr
  · apply TableUpdate.mask_ne_zero
    simp only [h₁.2, h₂.2, h₃.2, h₄.2, h₅.2, h₆.2]
    exact exists_bit h hm

theorem length_appendU64Var_small (h : x &&& ~~~0x7F = 0) : (appendU64Var x).length = 1 := by
  have hx : x.toNat < 128 := by
    have hand : x = x &&& 0x7F := by
      calc x
        _ = x &&& (0x7F ||| ~~~0x7F) := by
          rw [show (0x7F ||| ~~~0x7F : UInt64) = -1 by decide, UInt64.and_neg_one]
        _ = x &&& 0x7F := by rw [and_or_left, h, UInt64.or_zero]
    rw [hand, UInt64.toNat_and]
    exact Nat.lt_of_le_of_lt Nat.and_le_right (by decide)
  rw [appendU64Var, length_appendUvarint, if_pos hx]

def Op.Plain (op : Op) : Prop :=
  op.Sayable ∧ op.logged = op

theorem length_append_le {b b' : Bytes} (h : b.length ≤ n) (h' : b'.length ≤ m) : (b ++ b').length ≤ n + m := by
  rw [length_append]
  exact Nat.add_le_add h h'

theorem Op.length_encode_le {op : Op} {code : UInt64} (hc : code.toNat = op.code)
    (hn : (appendU64Var code).length ≤ n) (hb : op.body.length ≤ m) : op.encode.length ≤ n + m := by
  rw [appendU64Var, hc] at hn
  exact length_append_le hn hb

theorem ensures_op : Ensures (fun n op => op.encode.length ≤ n ∧ op.Plain) (Cur.op i) := by
  apply spends_uvar.bind
  intro n code hn
  split
  case h_1 hcode =>
    refine spends_string.bind fun _ _ h₁ => ensures_sstMeta.bind fun _ t ht => .pure ⟨?_, trivial, ?_⟩
    · exact Op.length_encode_le hcode hn (length_append_le h₁ ht.1)
    · rw [Op.logged, ht.2]
  case h_2 hcode =>
    exact spends_string.bind fun _ _ h₁ => spends_uvar.bind fun _ _ h₂ => (spends_u32FromUvar _).bind fun _ _ h₃ =>
      .pure ⟨Op.length_encode_le hcode hn (length_append_le h₁ (length_append_le h₂ h₃)), trivial, rfl⟩
  case h_3 hcode =>
    refine spends_string.bind fun _ _ h₁ => spends_uvar.bind fun _ _ h₂ => spends_uvar.bind fun k m h₃ => ?_
    split
    case isTrue => exact .throw _
    case isFalse hmask =>
      rw [not_or, not_not] at hmask
      refine (ensures_tableUpdate hmask.1 hmask.2).bind fun _ u hu => .pure ⟨?_, hu.2, rfl⟩
      have hlen : (appendU64Var u.mask).length ≤ k := by
        have hsmall : u.mask &&& ~~~0x7F = 0 := by
          rw [show (~~~0x7F : UInt64) = ~~~0x3F &&& ~~~0x7F by decide, ← UInt64.and_assoc,
            u.mask_bits.2.2.2.2.2.2, UInt64.zero_and]
        rw [length_appendU64Var_small hsmall]
        exact (one_le_length_appendUvarint _).trans h₃
      exact Op.length_encode_le hcode hn
        (length_append_le h₁ (length_append_le h₂ (length_append_le hlen hu.1)))
  case h_4 hcode =>
    exact spends_string.bind fun _ _ h₁ => spends_bytes.bind fun _ _ h₂ =>
      .pure ⟨Op.length_encode_le hcode hn (length_append_le h₁ h₂), trivial, rfl⟩
  case h_5 hcode =>
    exact spends_string.bind fun _ _ h₁ => .pure ⟨Op.length_encode_le hcode hn h₁, trivial, rfl⟩
  case h_6 hcode =>
    exact spends_string.bind fun _ _ h₁ => spends_bytes.bind fun _ _ h₂ =>
      .pure ⟨Op.length_encode_le hcode hn (length_append_le h₁ h₂), trivial, rfl⟩
  case h_7 hcode =>
    exact spends_uvar.bind fun _ _ h₁ => .pure ⟨Op.length_encode_le hcode hn h₁, trivial, rfl⟩
  case h_8 hcode =>
    exact spends_uvar.bind fun _ _ h₁ => .pure ⟨Op.length_encode_le hcode hn h₁, trivial, rfl⟩
  case h_9 hcode =>
    apply ensures_byte.bind
    intro k b h₁
    split
    case h_1 => exact .pure ⟨Op.length_encode_le hcode hn h₁, trivial, rfl⟩
    case h_2 => exact .pure ⟨Op.length_encode_le hcode hn h₁, trivial, rfl⟩
    case h_3 => exact .throw _
  case h_10 hcode =>
    exact spends_u64le.bind fun _ _ h₁ => .pure ⟨Op.length_encode_le hcode hn h₁, trivial, rfl⟩
  case h_11 hcode =>
    exact spends_u64le.bind fun _ _ h₁ => .pure ⟨Op.length_encode_le hcode hn h₁, trivial, rfl⟩
  case h_12 hcode =>
    refine spends_string.bind fun _ _ h₁ => spends_uvar.bind fun k c h₂ => ?_
    refine (Ensures.many (p := fun _ => True) (fun _ => spends_uvar.mono fun _ _ h => ⟨h, trivial⟩) 0 _).bind
      fun _ ids hids => .pure ⟨?_, trivial, rfl⟩
    rw [appendU64Var, ← hids.1] at h₂
    exact Op.length_encode_le hcode hn (length_append_le h₁ (length_append_le h₂ hids.2.1))
  case h_13 hcode =>
    exact spends_string.bind fun _ _ h₁ => spends_u64le.bind fun _ _ h₂ =>
      .pure ⟨Op.length_encode_le hcode hn (length_append_le h₁ h₂), trivial, rfl⟩
  case h_14 hcode =>
    exact spends_uvar.bind fun _ _ h₁ => .pure ⟨Op.length_encode_le hcode hn h₁, trivial, rfl⟩
  case h_15 => exact .throw _

end

def VersionEdit.Plain (edit : VersionEdit) : Prop :=
  ∀ op ∈ edit.ops, op.Plain

theorem VersionEdit.Plain.logged_eq {edit : VersionEdit} (h : edit.Plain) : edit.logged = edit := by
  rw [VersionEdit.logged, map_congr_left fun op hop => (h op hop).2, map_id']

theorem ensures_payload :
    Ensures (fun n p => (encodePayload p.1 ⟨p.2⟩).length ≤ n ∧ VersionEdit.Plain ⟨p.2⟩) Cur.payload := by
  refine spends_u64le.bind fun _ _ h₁ => spends_uvar.bind fun _ _ h₂ =>
    (Ensures.many (fun _ => ensures_op) 0 _).bind fun _ ops hops => .pure ⟨?_, hops.2.2⟩
  rw [appendU64Var, ← hops.1] at h₂
  exact length_append_le h₁ (length_append_le h₂ hops.2.1)

theorem decodePayload_ensures {id : UInt64} (h : decodePayload data = .ok (id, edit)) :
    (encodePayload id edit).length ≤ data.length ∧ edit.Plain := by
  rw [decodePayload] at h
  cases hp : Cur.payload data with
  | error e => rw [hp] at h; cases h
  | ok p =>
    rw [hp] at h
    change (if p.2 ≠ [] then _ else _) = _ at h
    split at h
    case isTrue => cases h
    cases h
    obtain ⟨n, hn, hlen, hplain⟩ := ensures_payload data p.1 p.2 hp
    exact ⟨hlen.trans (by omega), hplain⟩

theorem decodePayload_encodePayload_of_plain {id : UInt64} {edit : VersionEdit} (h : edit.Plain)
    (hlen : (encodePayload id edit).length < 2 ^ 64) :
    decodePayload (encodePayload id edit) = .ok (id, edit) := by
  rw [decodePayload_encodePayload (fun op hop => (h op hop).1) hlen, h.logged_eq]

namespace Cursor

theorem ensures_flagged {b : Bool} {r : Decoder α} {enc : α → Bytes} {p : α → Prop}
    (h : Ensures (fun n a => (enc a).length ≤ n ∧ p a) r) :
    Ensures (fun n o => (o.elim [] enc).length ≤ n ∧ ∀ a ∈ o, p a) (flagged b r) := by
  rw [flagged]
  split
  case isTrue =>
    refine h.map fun n a ha => ⟨ha.1, ?_⟩
    rintro _ ⟨rfl⟩
    exact ha.2
  case isFalse => exact .pure ⟨le_rfl, fun a ha => absurd ha (Option.not_mem_none a)⟩

theorem spends_flagged {b : Bool} {r : Decoder α} {enc : α → Bytes} (h : Spends enc r) :
    Spends (fun o => o.elim [] enc) (flagged b r) :=
  (ensures_flagged (p := fun _ => True) (h.mono fun _ _ hn => ⟨hn, trivial⟩)).mono fun _ _ hn => hn.1

theorem ensures_gated (h : Ensures P r) :
    Ensures (fun n a => P n a ∧ caps &&& bit ≠ 0) (gated caps bit why r) := by
  rw [gated]
  split
  case isTrue => exact .throw _
  case isFalse hbit => exact h.mono fun _ _ hp => ⟨hp, hbit⟩

theorem spends_time : Spends SstMeta.appendTime time := by
  refine spends_uvar.map fun n x hn => ?_
  rwa [SstMeta.appendTime, UInt64.toUInt64_toInt64]

def Range.encode (x : Range) : Bytes :=
  appendU64Var x.count ++ (appendU64Var x.minSeq ++ (appendU64Var x.maxSeq ++
    (appendBytes x.minKey ++ appendBytes x.maxKey)))

def Range.Sound (x : Range) : Prop :=
  x.count ≠ 0 ∧ x.minKey ≠ [] ∧ x.maxKey ≠ [] ∧ x.minSeq ≤ x.maxSeq

theorem ensures_range : Ensures (fun n x => x.encode.length ≤ n ∧ x.Sound) range := by
  refine spends_uvar.bind fun _ _ h₁ => spends_uvar.bind fun _ _ h₂ => spends_uvar.bind fun _ _ h₃ =>
    spends_bytes.bind fun _ _ h₄ => spends_bytes.bind fun _ _ h₅ => ?_
  split
  case isTrue => exact .throw _
  case isFalse hbad =>
    simp only [not_or] at hbad
    refine .pure ⟨?_, hbad.1, hbad.2.1, hbad.2.2.1, UInt64.not_lt.mp hbad.2.2.2⟩
    exact length_append_le h₁ (length_append_le h₂ (length_append_le h₃ (length_append_le h₄ h₅)))

theorem ensures_gatedRange :
    Ensures (fun n x => x.encode.length ≤ n ∧ x.Sound ∧ caps &&& Cap.rangeDeletes ≠ 0)
      (gated caps Cap.rangeDeletes why range) :=
  (ensures_gated ensures_range).mono fun _ _ h => ⟨h.1.1, h.1.2, h.2⟩

theorem ensures_capsWord :
    Ensures (fun n w => (appendU64Var w).length ≤ n ∧ w ≠ 0 ∧ w &&& ~~~caps = 0) (capsWord caps) := by
  apply spends_uvar.bind
  intro n w hn
  split
  case isTrue => exact .throw _
  case isFalse hbad =>
    rw [not_or, not_not] at hbad
    exact .pure ⟨hn, hbad⟩

theorem sound_of_sections {caps : UInt64} {t : SstMeta} {range : Option Range}
    (hage : ∀ x ∈ t.lastCompactionTime, caps &&& Cap.periodicAge ≠ 0)
    (hrange : ∀ x ∈ range, x.Sound ∧ caps &&& Cap.rangeDeletes ≠ 0)
    (hcaps : ∀ w ∈ t.tableCaps, w ≠ 0 ∧ w &&& ~~~caps = 0)
    (hcount : t.rangeCount = range.elim 0 (·.count)) (hminSeq : t.rangeMinSeq = range.elim 0 (·.minSeq))
    (hmaxSeq : t.rangeMaxSeq = range.elim 0 (·.maxSeq)) (hminKey : t.rangeMinKey = range.map (·.minKey))
    (hmaxKey : t.rangeMaxKey = range.map (·.maxKey)) :
    t.Sound caps ∧ (if t.hasRange caps then t.appendRange else []) = range.elim [] Range.encode := by
  refine ⟨⟨?_, ?_, hcaps⟩, ?_⟩
  · intro hsome
    obtain ⟨x, hx⟩ := Option.isSome_iff_exists.mp hsome
    exact hage x hx
  · cases range with
    | none => exact .inl ⟨hcount, hminSeq, hmaxSeq, hminKey, hmaxKey⟩
    | some x =>
      obtain ⟨⟨hc, hk, hk', hle⟩, hbit⟩ := hrange x rfl
      refine .inr ⟨?_, hbit, ?_, ⟨_, hminKey, hk⟩, _, hmaxKey, hk'⟩
      · rw [hcount]
        exact hc
      · rw [hminSeq, hmaxSeq]
        exact hle
  · cases range with
    | none => simp [SstMeta.hasRange, hcount]
    | some x =>
      obtain ⟨⟨hc, -⟩, hbit⟩ := hrange x rfl
      have hr : t.hasRange caps := by
        simp only [SstMeta.hasRange, decide_eq_true_eq]
        rw [hcount]
        exact ⟨UInt64.pos_iff_ne_zero.mpr hc, hbit⟩
      rw [if_pos hr, SstMeta.appendRange, hcount, hminSeq, hmaxSeq, hminKey, hmaxKey]
      rfl

theorem ensures_sstable {caps : UInt64} :
    Ensures (fun n t => (t.encode caps).length ≤ n ∧ t.Sound caps) (sstable caps) := by
  refine spends_uvar.bind fun _ _ h₁ => (spends_u32FromUvar _).bind fun _ _ h₂ => spends_uvar.bind fun _ _ h₃ =>
    spends_uvar.bind fun _ _ h₄ => spends_uvar.bind fun _ _ h₅ => spends_uvar.bind fun _ _ h₆ =>
    spends_uvar.bind fun _ _ h₇ => spends_bytes.bind fun _ _ h₈ => spends_bytes.bind fun _ _ h₉ =>
    spends_uvar.bind fun n flags hflags => ?_
  split
  case isTrue => exact .throw _
  refine (spends_flagged spends_string).bind fun _ _ h₁₁ => (spends_flagged spends_string).bind fun _ _ h₁₂ =>
    (spends_flagged spends_string).bind fun _ _ h₁₃ => (spends_flagged spends_time).bind fun _ _ h₁₄ =>
    (ensures_flagged (ensures_gated spends_time)).bind fun _ _ h₁₅ =>
    (ensures_flagged ensures_gatedRange).bind fun _ _ h₁₆ => (ensures_flagged ensures_capsWord).bind fun _ _ h₁₇ =>
    .pure ((sound_of_sections h₁₅.2 h₁₆.2 h₁₇.2 rfl rfl rfl rfl rfl).elim fun hsound hrange => ⟨?_, hsound⟩)
  have hn : 1 ≤ n := (one_le_length_appendUvarint _).trans hflags
  rw [SstMeta.encode, hsound.age_eq, hrange]
  exact length_append_le h₁ <| length_append_le h₂ <| length_append_le h₃ <| length_append_le h₄ <|
    length_append_le h₅ <| length_append_le h₆ <| length_append_le h₇ <| length_append_le h₈ <|
    length_append_le h₉ <|
    length_append_le ((length_appendU64Var_small (SstMeta.flag_bits _ caps).2.2.2.2.2.2.2).trans_le hn) <|
    length_append_le h₁₁ <| length_append_le h₁₂ <| length_append_le h₁₃ <| length_append_le h₁₄ <|
    length_append_le h₁₅.1 <| length_append_le h₁₆.1 h₁₇.1

theorem ensures_unifiedId :
    Ensures (fun n id => (putU64Word id).length ≤ n ∧ id ≠ cfId name) (unifiedId name) := by
  apply spends_u64le.bind
  intro n id hn
  split
  case isTrue => exact .throw _
  case isFalse hne => exact .pure ⟨hn, hne⟩

theorem storedUnifiedId_eq (cf : CfManifest) (h : ∀ id ∈ cf.unifiedId, id ≠ cfId cf.name) :
    cf.storedUnifiedId = cf.unifiedId := by
  rw [CfManifest.storedUnifiedId]
  cases hid : cf.unifiedId
  case none => rfl
  case some id => simp [h id hid]

theorem ensures_columnFamily {caps : UInt64} :
    Ensures (fun n cf => (cf.encode caps).length ≤ n ∧ (∀ t ∈ cf.sstables, t.Sound caps) ∧ cf.stored = cf)
      (columnFamily caps) := by
  refine spends_uvar.bind fun n flags hflags => ?_
  have hn : 1 ≤ n := (one_le_length_appendUvarint _).trans hflags
  split
  case isTrue => exact .throw _
  refine spends_string.bind fun _ name h₁ => spends_bytes.bind fun _ config h₂ =>
    (ensures_flagged ensures_unifiedId).bind fun _ id hid => spends_uvar.bind fun _ count hcount =>
    (Ensures.many (fun _ => ensures_sstable) 0 _).bind fun _ tables ht => .pure ?_
  have hstored := storedUnifiedId_eq ⟨name, config, tables, id⟩ hid.2
  refine ⟨?_, ht.2.2, by rw [CfManifest.stored, hstored]⟩
  have hflag : (if id.isSome then appendUvarint 1 else appendUvarint 0).length ≤ n := by
    split <;> rwa [length_appendUvarint, if_pos (by decide)]
  rw [appendU64Var, ← ht.1] at hcount
  rw [CfManifest.encode, hstored]
  exact length_append_le hflag <| length_append_le h₁ <| length_append_le h₂ <| length_append_le hid.1 <|
    length_append_le hcount ht.2.1

def EditCursor.encode (c : EditCursor) : Bytes :=
  putU64Word c.generation ++ (putU64Word c.appliedThrough ++ putU64Word c.nextEditId)

theorem ensures_editCursor :
    Ensures (fun n c => c.encode.length ≤ n ∧ c.appliedThrough.toNat + 1 = c.nextEditId.toNat ∧
      ¬(c.generation = 0 ∧ c.appliedThrough = 0)) editCursor := by
  refine spends_u64le.bind fun _ _ h₁ => spends_u64le.bind fun _ _ h₂ => spends_u64le.bind fun _ _ h₃ => ?_
  split
  case isTrue => exact .throw _
  case isFalse hnext =>
    split
    case isTrue => exact .throw _
    case isFalse hd => exact .pure ⟨length_append_le h₁ (length_append_le h₂ h₃), not_not.mp hnext, hd⟩

theorem ensures_floor :
    Ensures (fun n g => (putU64Word g).length ≤ n ∧ g ≠ 0 ∧ caps &&& Cap.walFloor ≠ 0 ∧
      flags &&& ManifestFile.unifiedWal ≠ 0) (floor caps flags) := by
  rw [floor]
  split
  case isTrue => exact .throw _
  case isFalse hcaps =>
    split
    case isTrue => exact .throw _
    case isFalse hflag =>
      apply spends_u64le.bind
      intro n g hn
      split
      case isTrue => exact .throw _
      case isFalse h => exact .pure ⟨hn, h, hcaps, hflag⟩

theorem ensures_check :
    Ensures (fun _ _ => caps &&& ~~~Cap.known = 0) (StateT.lift (Cap.check caps) : Decoder Unit) := by
  intro b a rest h
  rw [Cap.check] at h
  split at h
  case isTrue => cases h
  case isFalse hcaps =>
    cases h
    exact ⟨0, (Nat.zero_add _).le, not_not.mp hcaps⟩

theorem cursor_section (m : Manifest) {c : Option EditCursor}
    (h : ∀ x ∈ c, x.appliedThrough.toNat + 1 = x.nextEditId.toNat ∧ ¬(x.generation = 0 ∧ x.appliedThrough = 0))
    (hgen : m.generation = c.elim 0 (·.generation)) (happ : m.appliedThrough = c.elim 0 (·.appliedThrough))
    (hnext : m.nextEditId = c.elim 1 (·.nextEditId)) :
    m.appliedThrough.toNat + 1 = m.nextEditId.toNat ∧
    (if m.hasEditLog then putU64Word m.generation ++ (putU64Word m.appliedThrough ++ putU64Word m.nextEditId)
      else []) = c.elim [] EditCursor.encode := by
  rw [Manifest.hasEditLog, hgen, happ, hnext]
  cases c with
  | none => exact ⟨rfl, rfl⟩
  | some x =>
    obtain ⟨hx, hd⟩ := h x rfl
    refine ⟨hx, if_pos ?_⟩
    rw [decide_eq_true_eq]
    by_cases hg : x.generation = 0
    case pos => exact .inr (.inl fun ha => hd ⟨hg, ha⟩)
    case neg => exact .inl hg

theorem floor_section {P : Prop} {g : Option UInt64} (h : ∀ x ∈ g, x ≠ 0 ∧ P) :
    (g.getD 0 ≠ 0 → P) ∧ (if g.getD 0 ≠ 0 then putU64Word (g.getD 0) else []) = g.elim [] putU64Word := by
  cases g with
  | none => exact ⟨fun hne => absurd rfl hne, rfl⟩
  | some x => exact ⟨fun _ => (h x rfl).2, if_pos (h x rfl).1⟩

theorem ensures_manifest :
    Ensures (fun n m => m.content.length ≤ n ∧ m.Sound ∧ m.stored = m) manifest := by
  refine ensures_u32le.bind fun _ _ h₁ => ?_
  split
  case isTrue => exact .throw _
  case isFalse =>
  refine spends_u64le.bind fun _ caps h₂ => ?_
  split
  case isTrue => exact .throw _
  case isFalse =>
  refine ensures_check.bind fun z _ hcaps => ensures_u32le.bind fun _ flags h₃ => ?_
  split
  case isTrue => exact .throw _
  case isFalse =>
  refine spends_u64le.bind fun _ _ h₄ => spends_u64le.bind fun _ _ h₅ =>
    (spends_flagged spends_u64le).bind fun _ _ h₆ => (ensures_flagged ensures_editCursor).bind fun _ cursor h₇ =>
    (ensures_flagged ensures_floor).bind fun _ g h₈ => spends_uvar.bind fun _ _ hcount =>
    (Ensures.many (fun _ => ensures_columnFamily) 0 _).bind fun _ cfs hcfs => .pure <|
    (cursor_section _ h₇.2 rfl rfl rfl).elim fun hnext hcursor =>
    ⟨?_, ⟨hcaps, hnext, ?_, fun cf hcf => (hcfs.2.2 cf hcf).1⟩, ?_⟩
  · rw [appendU64Var, ← hcfs.1] at hcount
    rw [← (floor_section h₈.2).2] at h₈
    rw [Manifest.content, hcursor]
    refine length_append_le h₁ <| length_append_le h₂ <| le_trans ?_ (Nat.le_add_left _ z)
    exact length_append_le h₃ <| length_append_le h₄ <| length_append_le h₅ <| length_append_le h₆ <|
      length_append_le h₇.1 <| length_append_le h₈.1 <| length_append_le hcount hcfs.2.1
  · intro hne
    obtain ⟨hcap, hflag⟩ := (floor_section h₈.2).1 hne
    exact ⟨hcap, if_pos (decide_eq_true hflag)⟩
  · rw [Manifest.stored, map_congr_left fun cf hcf => (hcfs.2.2 cf hcf).2, map_id']

end Cursor

namespace Manifest

theorem length_encode (m : Manifest) (crc : Bytes → UInt32) : (m.encode crc).length = m.content.length + 12 := by
  simp only [encode, putU32, length_append, length_putLe, ManifestFile.magic, length_cons,
    length_nil]
  omega

theorem decode_ensures (h : decode crc data = .ok m) :
    (m.encode crc).length ≤ data.length ∧ m.Sound ∧ m.stored = m := by
  simp only [decode] at h
  split at h
  case isTrue => cases h
  case isFalse =>
  split at h
  case isTrue => cases h
  case isFalse =>
  split at h
  case isTrue => cases h
  case isFalse hlen =>
  split at h
  case isTrue => cases h
  case isFalse =>
  cases hp : Cursor.manifest ((data.take (data.length - 4)).drop 8) with
  | error e => rw [hp] at h; cases h
  | ok p =>
    rw [hp] at h
    change (if p.2 ≠ [] then _ else _) = _ at h
    split at h
    case isTrue => cases h
    cases h
    obtain ⟨n, hn, hcontent, hsound⟩ := Cursor.ensures_manifest _ p.1 p.2 hp
    refine ⟨?_, hsound⟩
    rw [length_drop, length_take] at hn
    rw [ManifestFile.headerLen] at hlen
    rw [length_encode]
    omega

theorem sound_stored {m : Manifest} : m.stored.Sound ↔ m.Sound := by
  have htables : (∀ cf ∈ m.stored.cfs, ∀ t ∈ cf.sstables, t.Sound m.caps) ↔
      ∀ cf ∈ m.cfs, ∀ t ∈ cf.sstables, t.Sound m.caps := by
    rw [stored, forall_mem_map]
    rfl
  constructor
  case mp => exact fun h => ⟨h.caps, h.cursor, h.floor, htables.mp h.tables⟩
  case mpr => exact fun h => ⟨h.caps, h.cursor, h.floor, htables.mpr h.tables⟩

theorem decode_encode_iff {m : Manifest} (hlen : (m.encode crc).length < 2 ^ 64) :
    decode crc (m.encode crc) = .ok m.stored ↔ m.Sound := by
  constructor
  case mp => exact fun h => sound_stored.mp (decode_ensures h).2.1
  case mpr => exact fun h => h.decode_encode hlen

theorem decode_encode_of_decode (hlen : data.length < 2 ^ 64) (h : decode crc data = .ok m) :
    decode crc (m.encode crc) = .ok m := by
  obtain ⟨hle, hsound, hstored⟩ := decode_ensures h
  rw [hsound.decode_encode (hle.trans_lt hlen), hstored]

end Manifest

theorem Op.sayable_logged {op : Op} : op.logged.Sayable ↔ op.Sayable := by
  cases op <;> rfl

theorem decodePayload_encodePayload_iff {id : UInt64} {edit : VersionEdit}
    (hlen : (encodePayload id edit).length < 2 ^ 64) :
    decodePayload (encodePayload id edit) = .ok (id, edit.logged) ↔ edit.Sayable := by
  constructor
  case mp =>
    intro h op hop
    exact Op.sayable_logged.mp ((decodePayload_ensures h).2 op.logged (mem_map_of_mem hop)).1
  case mpr => exact fun h => decodePayload_encodePayload h hlen

theorem decodePayload_encodePayload_of_decode {id : UInt64} (hlen : data.length < 2 ^ 64)
    (h : decodePayload data = .ok (id, edit)) :
    decodePayload (encodePayload id edit) = .ok (id, edit) := by
  obtain ⟨hle, hplain⟩ := decodePayload_ensures h
  exact decodePayload_encodePayload_of_plain hplain (hle.trans_lt hlen)

-- The encodings of the catalog, in memory, and their decoders. A manifest comes back with no unified
-- id in place of one that is derived from the name, an edit without the capability words of its
-- tables; both for the manifests that obey the gates and the edits whose updates change something,
-- and for no others. What was read is the same when it is written and read again.
theorem codecs_inverse (crc : Bytes → UInt32) :
    (∀ m : Manifest, (m.encode crc).length < 2 ^ 64 →
      (Manifest.decode crc (m.encode crc) = .ok m.stored ↔ m.Sound)) ∧
    (∀ (id : UInt64) (edit : VersionEdit), (encodePayload id edit).length < 2 ^ 64 →
      (decodePayload (encodePayload id edit) = .ok (id, edit.logged) ↔ edit.Sayable)) ∧
    (∀ (data : Bytes) (m : Manifest), data.length < 2 ^ 64 → Manifest.decode crc data = .ok m →
      Manifest.decode crc (m.encode crc) = .ok m) ∧
    ∀ (data : Bytes) (id : UInt64) (edit : VersionEdit), data.length < 2 ^ 64 →
      decodePayload data = .ok (id, edit) → decodePayload (encodePayload id edit) = .ok (id, edit) := by
  refine ⟨?_, ?_, ?_, ?_⟩
  · intro m hlen
    exact Manifest.decode_encode_iff hlen
  · intro id edit hlen
    exact decodePayload_encodePayload_iff hlen
  · intro data m hlen h
    exact Manifest.decode_encode_of_decode hlen h
  · intro data id edit hlen h
    exact decodePayload_encodePayload_of_decode hlen h

def sampleManifest : Manifest where
  nextFileId := 9
  globalSeq := 300
  walLayout := .unified
  instanceNonce := some 5
  caps := Cap.periodicAge ||| Cap.rangeDeletes ||| Cap.walFloor
  generation := 1
  appliedThrough := 2
  nextEditId := 3
  walFloor := 4
  cfs := [{
    name := "f"
    config := [7]
    unifiedId := some 77
    sstables := [{
      id := 8, maxSeq := 200, minKey := [1], maxKey := [2], tier := some "t", object := some "o"
      partition := some "p", maxEntryTime := some (-3), lastCompactionTime := some 6
      rangeCount := 1, rangeMinSeq := 2, rangeMaxSeq := 3, rangeMinKey := some [1], rangeMaxKey := some [4]
      tableCaps := some Cap.rangeDeletes }] }]

def sampleEdit : VersionEdit where
  ops := [.addTable "f" { id := 8, maxEntryTime := some (-3) }, .updateTable "f" 8 (.relocation none (some "o")),
    .removeTables "f" [3, 200], .setWalLayout .unified]

-- The last of them reads an edit whose count and file id have a byte more than they need.
theorem codecs_inverse_sample :
    Manifest.decode (fun _ => 0) (sampleManifest.encode fun _ => 0) = .ok sampleManifest.stored ∧
    decodePayload (encodePayload 6 sampleEdit) = .ok (6, sampleEdit.logged) ∧
    Manifest.decode (fun _ => 0) (sampleManifest.stored.encode fun _ => 0) = .ok sampleManifest.stored ∧
    decodePayload (encodePayload 6 ⟨[.setNextFileId 5]⟩) = .ok (6, ⟨[.setNextFileId 5]⟩) := by
  have hsound : sampleManifest.Sound := by
    refine ⟨by decide, by decide, fun _ => by decide, ?_⟩
    simp only [sampleManifest, forall_mem_singleton]
    refine ⟨fun _ => by decide, .inr ⟨by decide, by decide, by decide, ⟨_, rfl, by decide⟩, _, rfl, by decide⟩, ?_⟩
    rintro _ ⟨rfl⟩
    decide
  have hsay : sampleEdit.Sayable := by
    intro op hop
    simp only [sampleEdit, mem_cons, not_mem_nil, or_false] at hop
    rcases hop with rfl | rfl | rfl | rfl
    · trivial
    · change TableUpdate.mask _ ≠ 0
      decide
    · trivial
    · trivial
  obtain ⟨hmanifest, hedit, hmanifests, hedits⟩ := codecs_inverse fun _ => 0
  have hstored := (hmanifest sampleManifest (by decide +kernel)).mpr hsound
  refine ⟨hstored, (hedit 6 sampleEdit (by decide +kernel)).mpr hsay, ?_, ?_⟩
  · exact hmanifests _ _ (by decide +kernel) hstored
  · exact hedits [6, 0, 0, 0, 0, 0, 0, 0, 0x81, 0x00, 7, 0x85, 0x00] 6 _ (by decide) (by decide +kernel)

-- The manifest that a snapshot is made of says the derived id too, and the file leaves it out; an edit
-- has no field for the capability word of a table, and no reader for an update of nothing.
theorem codecs_inverse_not_literal :
    Manifest.decode (fun _ => 0) (Manifest.encode (fun _ => 0) { cfs := [⟨"f", [], [], some (cfId "f")⟩] }) =
      .ok { cfs := [⟨"f", [], [], none⟩] } ∧
    decodePayload (encodePayload 1 ⟨[.addTable "f" { id := 1, tableCaps := some Cap.rangeDeletes }]⟩) =
      .ok (1, ⟨[.addTable "f" { id := 1 }]⟩) ∧
    decodePayload (encodePayload 1 ⟨[.updateTable "f" 1 {}]⟩) = .error (Cur.badMask 0 0) := by
  decide +kernel

end OndaDb.Catalog

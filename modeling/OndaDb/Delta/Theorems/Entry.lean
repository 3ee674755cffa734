import OndaDb.Delta.Block
import OndaDb.Delta.Theorems.Varint
import OndaDb.Wal.Theorems.Record

-- What a delta block decodes to, and which bytes it could have been written in.
namespace OndaDb.Delta

open Encoding Catalog Wal Reader

section keys

variable {a b : Bytes}

theorem precedes_append (p : Bytes) : precedes (p ++ a) (p ++ b) = precedes a b := by
  induction p
  case nil => rfl
  case cons x p ih =>
    rw [List.cons_append, List.cons_append, precedes, ih]
    simp

theorem sharedPrefixLen_le_left (a b : Bytes) : sharedPrefixLen a b ≤ a.length := by
  fun_induction sharedPrefixLen a b <;> simp_all

theorem sharedPrefixLen_le_right (a b : Bytes) : sharedPrefixLen a b ≤ b.length := by
  fun_induction sharedPrefixLen a b <;> simp_all

theorem le_sharedPrefixLen (hn : n ≤ a.length) (h : b = a.take n ++ s) : n ≤ sharedPrefixLen a b := by
  induction n generalizing a b
  case zero => exact Nat.zero_le _
  case succ n ih =>
    cases a
    case nil => simp at hn
    case cons x a =>
      rw [h, List.take_succ_cons, List.cons_append, sharedPrefixLen, if_pos rfl]
      exact Nat.succ_le_succ (ih (by simpa using hn) rfl)

end keys

section head

def Head.hasTtl (h : Head) : Bool :=
  flagsOf h.kind h.mods &&& Flags.hasTtl ≠ 0

def Head.hasVlog (h : Head) : Bool :=
  flagsOf h.kind h.mods &&& Flags.hasVlog ≠ 0

def Head.append (h : Head) : Bytes :=
  appendUvarint (RecordKind.code (.point h.kind)) ++ (appendUvarint h.mods.toNat ++ (appendUvarint h.shared.toNat ++
    (appendUvarint h.suffixLen.toNat ++ (appendUvarint h.valLen.toNat ++ (appendUvarint h.seq.toNat ++
    if h.hasTtl then appendVarint h.ttl.toInt else [])))))

def headOf (shared : Nat) (e : Entry) : Head where
  kind := e.kind
  mods := (modifiers e).toUInt64
  shared := shared.toUInt64
  suffixLen := (e.key.length - shared).toUInt64
  valLen := e.value.length.toUInt64
  seq := e.seq
  ttl := e.ttl

variable {e : Entry} {h : Head}

def modsOf (ttl vlog : Bool) : Nat :=
  (if ttl then Modifiers.hasTtl else 0) + (if vlog then Modifiers.hasVlog else 0)

theorem modifiers_eq (hp : e.Placed) : modifiers e = modsOf (e.ttl ≠ 0) e.value.isVlog := by
  have h (k : Kind) (t v : Bool) : (k.tombstone → ¬v) →
      (Flags.normalized k.tombstone (k = .singleDelete) t v).toNat &&& Modifiers.known = modsOf t v := by
    cases k <;> cases t <;> cases v <;> decide
  exact h e.kind _ _ hp

theorem flagsOf_modsOf (k : Kind) (t v : Bool) :
    (decide (flagsOf k (modsOf t v).toUInt64 &&& Flags.hasTtl ≠ 0) = t) ∧
    (decide (flagsOf k (modsOf t v).toUInt64 &&& Flags.hasVlog ≠ 0) = v) := by
  cases k <;> cases t <;> cases v <;> decide

theorem hasTtl_headOf (hp : e.Placed) : (headOf n e).hasTtl = decide (e.ttl ≠ 0) := by
  rw [Head.hasTtl, headOf, modifiers_eq hp]
  exact (flagsOf_modsOf ..).1

theorem mods_of_check (hm : Modifiers.check m.toNat = .ok ()) (hf : Flags.check (flagsOf k m) = .ok ()) :
    ∃ t v, m = (modsOf t v).toUInt64 ∧ (k.tombstone → v = false) := by
  have hmod : m.toNat / 8 = 0 ∧ m.toNat % 2 = 0 := by
    by_contra hc
    rw [Modifiers.check, if_pos (by omega)] at hm
    cases hm
  have hcases : m = 0 ∨ m = 2 ∨ m = 4 ∨ m = 6 := by
    simp only [← UInt64.toNat_inj, UInt64.reduceToNat]
    omega
  rcases hcases with rfl | rfl | rfl | rfl
  · exact ⟨false, false, rfl, fun _ => rfl⟩
  · exact ⟨true, false, rfl, fun _ => rfl⟩
  · exact ⟨false, true, rfl, by revert hf; cases k <;> decide⟩
  · exact ⟨true, true, rfl, by revert hf; cases k <;> decide⟩

structure Head.Valid (h : Head) : Prop where
  mods : Modifiers.check h.mods.toNat = .ok ()
  flags : Flags.check (flagsOf h.kind h.mods) = .ok ()
  ttl : h.hasTtl = false → h.ttl = 0

theorem Head.Valid.mods_eq (hv : h.Valid) : h.mods = (modsOf h.hasTtl h.hasVlog).toUInt64 := by
  obtain ⟨t, v, hm, -⟩ := mods_of_check hv.mods hv.flags
  have hf := flagsOf_modsOf h.kind t v
  rw [← hm] at hf
  rw [Head.hasTtl, Head.hasVlog, hf.1, hf.2, hm]

theorem Head.Valid.not_vlog (hv : h.Valid) (ht : h.kind.tombstone) : h.hasVlog = false := by
  obtain ⟨t, v, hm, hk⟩ := mods_of_check hv.mods hv.flags
  have hf := flagsOf_modsOf h.kind t v
  rw [← hm] at hf
  rw [Head.hasVlog, hf.2, hk ht]

theorem modsOf_lt (t v : Bool) : modsOf t v < 128 := by
  cases t <;> cases v <;> decide

theorem encodeHead_eq (hp : e.Placed) (hk : e.key.length < 2 ^ 64) (hn : n ≤ e.key.length)
    (hv : e.value.length < 2 ^ 64) : encodeHead n e = (headOf n e).append := by
  have hmods : modifiers e < 2 ^ 64 := by
    rw [modifiers_eq hp]
    exact (modsOf_lt ..).trans (by decide)
  have hlt : n < 2 ^ 64 := by omega
  have hsuf : e.key.length - n < 2 ^ 64 := by omega
  rw [Head.append, hasTtl_headOf hp]
  simp only [headOf, Nat.toUInt64_eq, UInt64.toNat_ofNat_of_lt' hmods, UInt64.toNat_ofNat_of_lt' hlt,
    UInt64.toNat_ofNat_of_lt' hsuf, UInt64.toNat_ofNat_of_lt' hv, decide_eq_true_eq]
  rfl

theorem code_of_check (h : RecordKind.check n = .ok k) : n = k.code := by
  unfold RecordKind.check at h
  split at h
  case isTrue => cases h
  case isFalse => split at h <;> cases h <;> rfl

theorem code_of_checkPointKind (h : checkPointKind n = .ok k) : n = RecordKind.code (.point k) := by
  cases hc : RecordKind.check n with
  | error e => rw [checkPointKind, hc] at h; cases h
  | ok r =>
    rw [checkPointKind, hc] at h
    cases r <;> cases h
    exact code_of_check hc

theorem lift_eq_ok : lift x b = .ok (a, rest) ↔ x = .ok a ∧ b = rest := by
  cases x
  case error => simp [lift, Bind.bind, Except.bind]
  case ok => simp [lift, Bind.bind, Except.bind, pure, Except.pure]

theorem uvar_longForm (h : uvar errs b = .ok (x, rest)) :
    ∃ p, b = p ++ rest ∧ LongForm p (appendUvarint x.toNat) := by
  rw [uvar] at h
  split at h
  case h_1 => cases h
  case h_2 hx =>
    cases h
    obtain ⟨p, hb, hlt, hp⟩ := uvarint_longForm hx
    exact ⟨p, hb, by rwa [UInt64.toNat_ofNat_of_lt' hlt]⟩

theorem signed_longForm (h : signed errs b = .ok (x, rest)) :
    ∃ p, b = p ++ rest ∧ LongForm p (appendVarint x.toInt) := by
  rw [signed] at h
  split at h
  case h_1 => cases h
  case h_2 hx =>
    cases h
    obtain ⟨p, hb, hle, hlt, hp⟩ := varint_longForm hx
    exact ⟨p, hb, by rwa [Int64.toInt_ofInt_of_le hle hlt]⟩

theorem readTtl_longForm (h : readTtl k m b = .ok (x, rest)) :
    ∃ p, b = p ++ rest ∧
      LongForm p (if flagsOf k m &&& Flags.hasTtl ≠ 0 then appendVarint x.toInt else []) ∧
      (flagsOf k m &&& Flags.hasTtl = 0 → x = 0) := by
  rw [readTtl] at h
  split at h
  case isTrue ht =>
    obtain ⟨p, hb, hp⟩ := signed_longForm h
    exact ⟨p, hb, by rwa [if_pos ht], fun hc => absurd hc ht⟩
  case isFalse ht =>
    cases h
    exact ⟨[], rfl, by rw [if_neg ht]; exact .refl [], fun _ => rfl⟩

theorem readHead_longForm (hr : readHead b = .ok (h, rest)) :
    h.Valid ∧ ∃ p, b = p ++ rest ∧ LongForm p h.append := by
  simp only [readHead, bind_eq_ok, lift_eq_ok] at hr
  obtain ⟨code, _, hcode, kind, _, ⟨hkind, rfl⟩, mods, _, hmods, _, _, ⟨hm, rfl⟩, _, _, ⟨hf, rfl⟩,
    shared, _, hshared, suffixLen, _, hsuf, valLen, _, hval, seq, _, hseq, ttl, _, httl, hlast⟩ := hr
  cases hlast
  obtain ⟨p₁, rfl, h₁⟩ := uvar_longForm hcode
  obtain ⟨p₂, rfl, h₂⟩ := uvar_longForm hmods
  obtain ⟨p₃, rfl, h₃⟩ := uvar_longForm hshared
  obtain ⟨p₄, rfl, h₄⟩ := uvar_longForm hsuf
  obtain ⟨p₅, rfl, h₅⟩ := uvar_longForm hval
  obtain ⟨p₆, rfl, h₆⟩ := uvar_longForm hseq
  obtain ⟨p₇, rfl, h₇, ht⟩ := readTtl_longForm httl
  refine ⟨⟨hm, hf, fun h => ht (by simpa [Head.hasTtl] using h)⟩, p₁ ++ (p₂ ++ (p₃ ++ (p₄ ++ (p₅ ++ (p₆ ++ p₇))))),
    by simp only [List.append_assoc], ?_⟩
  rw [code_of_checkPointKind hkind] at h₁
  simp only [Head.append, Head.hasTtl, decide_eq_true_eq]
  exact h₁.append (h₂.append (h₃.append (h₄.append (h₅.append (h₆.append h₇)))))

end head

section stored

structure Stored.Valid (s : Stored) : Prop where
  head : s.head.Valid
  suffix : s.suffix.length = s.head.suffixLen.toNat
  length : s.value.length = s.head.valLen.toNat
  vlog : s.value.isVlog = s.head.hasVlog

def Stored.append (s : Stored) : Bytes :=
  s.head.append ++ (s.suffix ++ s.value.append)

def Entry.stored (prevKey : Bytes) (e : Entry) : Stored :=
  let head := headOf (sharedPrefixLen prevKey e.key) e
  ⟨head, head.append.length, e.key.drop (sharedPrefixLen prevKey e.key), e.value⟩

variable {s : Stored} {e : Entry} {b prevKey : Bytes}

theorem readValue_eq_ok (hr : readValue h b = .ok (v, rest)) :
    b = v.append ++ rest ∧ v.length = h.valLen.toNat ∧ v.isVlog = h.hasVlog := by
  rw [readValue] at hr
  split at hr
  case isTrue hv =>
    obtain ⟨o, ho, rfl⟩ := map_eq_ok.mp hr
    obtain ⟨x, hx, rfl⟩ := map_eq_ok.mp ho
    obtain ⟨w, hw, rfl⟩ := map_eq_ok.mp hx
    rw [take] at hw
    split at hw
    case isTrue => cases hw
    case isFalse hlen =>
      cases hw
      have h8 : (b.take 8).length = 8 := by
        rw [List.length_take]
        omega
      have hlt : readLe (b.take 8) < 2 ^ 64 := by
        have := readLe_lt (b.take 8)
        rwa [h8] at this
      refine ⟨?_, rfl, (decide_eq_true hv).symm⟩
      rw [Value.append, UInt64.toNat_ofNat_of_lt' hlt, putU64, putLe_readLe h8, List.take_append_drop]
  case isFalse hv =>
    obtain ⟨w, hw, rfl⟩ := map_eq_ok.mp hr
    rw [take] at hw
    split at hw
    case isTrue => cases hw
    case isFalse hlen =>
      cases hw
      refine ⟨(List.take_append_drop ..).symm, ?_, (decide_eq_false hv).symm⟩
      rw [Value.length, List.length_take]
      omega

theorem decodeDeltaHeader_eq_ok (hr : decodeDeltaHeader b = .ok (s, rest)) :
    s.Valid ∧ ∃ p, b = p ++ (s.suffix ++ (s.value.append ++ rest)) ∧ LongForm p s.head.append ∧
      s.keyStart = p.length := by
  simp only [decodeDeltaHeader, bind_eq_ok] at hr
  obtain ⟨⟨keyStart, head⟩, b₁, hhead, suffix, b₂, hsuf, value, b₃, hval, hlast⟩ := hr
  cases hlast
  cases hh : readHead b with
  | error e => rw [counted, hh] at hhead; cases hhead
  | ok r =>
    rw [counted, hh] at hhead
    cases hhead
    obtain ⟨hvalid, p, rfl, hp⟩ := readHead_longForm hh
    rw [take] at hsuf
    split at hsuf
    case isTrue => cases hsuf
    case isFalse hlen =>
      cases hsuf
      obtain ⟨hb₂, hlength, hvlog⟩ := readValue_eq_ok hval
      refine ⟨⟨hvalid, ?_, hlength, hvlog⟩, p, ?_, hp, ?_⟩
      · change ¬r.2.length < r.1.suffixLen.toNat at hlen
        simp only [List.length_take]
        omega
      · rw [← hb₂, List.take_append_drop]
      · simp only [List.length_append]
        omega

end stored

section entry

variable {s : Stored} {e : Entry} {b prevKey : Bytes} {bytewise : Bool}

theorem Value.length_lt {v : Value} (h : v.append.length < 2 ^ 64) : v.length < 2 ^ 64 := by
  cases v
  case inline v => exact h
  case vlog n o => exact n.toNat_lt

theorem length_key_add_le (prevKey : Bytes) (e : Entry) :
    e.key.length + e.value.append.length ≤ prevKey.length + (encodeEntryDelta prevKey e).length := by
  have := sharedPrefixLen_le_left prevKey e.key
  simp only [encodeEntryDelta, List.length_append, List.length_drop]
  omega

structure Entry.Fits (prevKey : Bytes) (e : Entry) : Prop where
  placed : e.Placed
  length : prevKey.length + (encodeEntryDelta prevKey e).length < 2 ^ 64

namespace Entry.Fits

variable (hf : e.Fits prevKey)
include hf

theorem key_lt : e.key.length < 2 ^ 64 := by
  have := length_key_add_le prevKey e
  have := hf.length
  omega

theorem value_lt : e.value.length < 2 ^ 64 := by
  have := length_key_add_le prevKey e
  have := hf.length
  exact Value.length_lt (by omega)

theorem append_stored : (e.stored prevKey).append = encodeEntryDelta prevKey e := by
  rw [encodeEntryDelta, encodeHead_eq hf.placed hf.key_lt (sharedPrefixLen_le_right ..) hf.value_lt]
  rfl

end Entry.Fits

-- The order of two keys is that of what follows the start they share.
theorem precedes_entry (s : Stored) (prevKey : Bytes) :
    precedes (s.entry prevKey).key prevKey = precedes s.suffix (prevKey.drop s.head.shared.toNat) := by
  have h := precedes_append (a := s.suffix) (b := prevKey.drop s.head.shared.toNat)
    (prevKey.take s.head.shared.toNat)
  rwa [List.take_append_drop] at h

theorem decodeEntryDelta_eq_ok : decodeEntryDelta bytewise prevKey b = .ok (s, rest) ↔
    decodeDeltaHeader b = .ok (s, rest) ∧ s.head.shared.toNat ≤ prevKey.length ∧
    (bytewise → precedes (s.entry prevKey).key prevKey = false) := by
  rw [decodeEntryDelta, bind_eq_ok]
  constructor
  case mp =>
    rintro ⟨s', b', hs, h⟩
    split at h
    case isTrue => cases h
    case isFalse hle =>
      split at h
      case isTrue => cases h
      case isFalse ho =>
        cases h
        refine ⟨hs, Nat.le_of_not_lt hle, fun hb => ?_⟩
        rw [precedes_entry]
        simpa [hb] using ho
  case mpr =>
    rintro ⟨hs, hle, ho⟩
    refine ⟨s, rest, hs, ?_⟩
    rw [precedes_entry] at ho
    rw [if_neg (Nat.not_lt_of_le hle), if_neg (by simpa using ho)]
    rfl

-- An entry stored in the form the writer gives it: it shares as much as it can, has room for an expiry time
-- only if it has one, and the numbers of its head are as short as they can be.
structure Stored.Canonical (prevKey : Bytes) (s : Stored) : Prop where
  shared : s.head.shared.toNat = sharedPrefixLen prevKey (s.entry prevKey).key
  ttl : s.head.hasTtl → s.head.ttl ≠ 0
  short : s.keyStart = s.head.append.length

theorem Stored.Valid.placed (hv : s.Valid) : (s.entry prevKey).Placed := by
  intro ht
  change ¬s.value.isVlog
  rw [hv.vlog, hv.head.not_vlog ht]
  decide

theorem Stored.length_key (hs : s.head.shared.toNat ≤ prevKey.length) :
    (s.entry prevKey).key.length = s.head.shared.toNat + s.suffix.length := by
  simp only [Stored.entry, List.length_append, List.length_take]
  omega

theorem Stored.Canonical.eq_stored (hc : s.Canonical prevKey) (hv : s.Valid)
    (hs : s.head.shared.toNat ≤ prevKey.length) : s = (s.entry prevKey).stored prevKey := by
  have httl : decide (s.head.ttl ≠ 0) = s.head.hasTtl := by
    cases ht : s.head.hasTtl with
    | false => simp [hv.head.ttl ht]
    | true => simp [hc.ttl ht]
  have hmods : s.head.mods = (modifiers (s.entry prevKey)).toUInt64 := by
    rw [modifiers_eq hv.placed, hv.head.mods_eq, ← httl, ← hv.vlog]
    rfl
  have hhead : s.head = headOf (sharedPrefixLen prevKey (s.entry prevKey).key) (s.entry prevKey) := by
    rw [← hc.shared, headOf, ← hmods, Stored.length_key hs, Nat.add_sub_cancel_left, hv.suffix,
      show (s.entry prevKey).value.length = s.head.valLen.toNat from hv.length]
    simp only [Nat.toUInt64_eq, UInt64.ofNat_toNat]
    rfl
  have hsuffix : (s.entry prevKey).key.drop (sharedPrefixLen prevKey (s.entry prevKey).key) = s.suffix := by
    rw [← hc.shared]
    apply List.drop_left'
    rw [List.length_take]
    omega
  rw [Entry.stored, hsuffix, ← hhead, ← hc.short]
  rfl

theorem length_encodeHead_add_le (hv : s.Valid) (hs : s.head.shared.toNat ≤ prevKey.length) :
    (encodeEntryDelta prevKey (s.entry prevKey)).length ≤ s.append.length := by
  have hkey := Stored.length_key hs
  have hle : s.head.shared.toNat ≤ sharedPrefixLen prevKey (s.entry prevKey).key := le_sharedPrefixLen hs rfl
  have hright := sharedPrefixLen_le_right prevKey (s.entry prevKey).key
  obtain ⟨k, hk⟩ := Nat.exists_eq_add_of_le hle
  have hshared := length_appendUvarint_add_le s.head.shared.toNat k
  have hsuffix := length_appendUvarint_mono
    (show (s.entry prevKey).key.length - (s.head.shared.toNat + k) ≤ s.head.suffixLen.toNat by
      rw [hkey, hv.suffix]
      omega)
  have hmods : (appendUvarint (modifiers (s.entry prevKey))).length ≤ (appendUvarint s.head.mods.toNat).length := by
    rw [length_appendUvarint, modifiers_eq hv.placed, if_pos (modsOf_lt ..)]
    exact List.length_pos_of_ne_nil (appendUvarint_ne_nil _)
  have httl : (if (s.entry prevKey).ttl ≠ 0 then appendVarint (s.entry prevKey).ttl.toInt else []).length ≤
      (if s.head.hasTtl then appendVarint s.head.ttl.toInt else []).length := by
    cases ht : s.head.hasTtl with
    | false => simp [Stored.entry, hv.head.ttl ht]
    | true =>
      rw [if_pos rfl]
      split
      · exact le_rfl
      · exact Nat.zero_le _
  have hlength : (s.entry prevKey).value.length = s.head.valLen.toNat := hv.length
  have hkind : (s.entry prevKey).kind = s.head.kind := rfl
  have hseq : (s.entry prevKey).seq = s.head.seq := rfl
  have hvalue : (s.entry prevKey).value = s.value := rfl
  simp only [encodeEntryDelta, encodeHead, Stored.append, Head.append, List.length_append, List.length_drop, hk,
    hlength, hkind, hseq]
  rw [hvalue]
  omega

theorem decodeEntryDelta_bytes (h : decodeEntryDelta bytewise prevKey b = .ok (s, rest))
    (hlen : prevKey.length + b.length < 2 ^ 64) :
    ∃ p, b = p ++ rest ∧ p ≠ [] ∧ (encodeEntryDelta prevKey (s.entry prevKey)).length ≤ p.length ∧
      (s.entry prevKey).Fits prevKey ∧ (s.Canonical prevKey → p = encodeEntryDelta prevKey (s.entry prevKey)) := by
  obtain ⟨hd, hs, -⟩ := decodeEntryDelta_eq_ok.mp h
  obtain ⟨hv, p, rfl, hp, hk⟩ := decodeDeltaHeader_eq_ok hd
  have hle := length_encodeHead_add_le hv hs
  simp only [Stored.append, List.length_append] at hle
  simp only [List.length_append] at hlen
  have hlong := hp.length_le
  have hpos : 0 < s.head.append.length := by
    rw [Head.append, List.length_append]
    have := List.length_pos_of_ne_nil (appendUvarint_ne_nil (RecordKind.code (.point s.head.kind)))
    omega
  have hf : (s.entry prevKey).Fits prevKey := ⟨hv.placed, by omega⟩
  refine ⟨p ++ (s.suffix ++ s.value.append), by simp only [List.append_assoc], ?_, ?_, hf, ?_⟩
  · apply List.ne_nil_of_length_pos
    rw [List.length_append]
    omega
  · simp only [List.length_append]
    omega
  · intro hc
    rw [hp.eq (hk.symm.trans hc.short), ← hf.append_stored, ← hc.eq_stored hv hs]
    rfl

end entry

end OndaDb.Delta

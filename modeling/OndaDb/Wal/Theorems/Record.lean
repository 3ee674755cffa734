import OndaDb.Wal.Record

namespace OndaDb.Wal

open Encoding List

section Bind

variable {α β : Type} {ε : Type}

@[simp] theorem ok_bind (a : α) (f : α → Except ε β) : (Except.ok a >>= f) = f a := rfl

@[simp] theorem required_some (text : String) (a : α) : required text (some a) = .ok a := rfl

end Bind

@[simp] theorem RecordKind.check_code (k : RecordKind) : check k.code = .ok k := by
  rcases k with (_ | _ | _ | _) | _ | _ | _ | _ <;> rfl

theorem RecordKind.code_lt (k : RecordKind) : k.code < 2 ^ 64 := by
  rcases k with (_ | _ | _ | _) | _ | _ | _ | _ <;> decide

structure Fields (a b : Bytes) (seq : Nat) (ttl : Int) : Prop where
  slots : a.length + b.length < 2 ^ 64
  seq : seq < 2 ^ 64
  low : -2 ^ 63 ≤ ttl
  high : ttl < 2 ^ 63

theorem slots_append (text : String) (h : a.length + b.length < 2 ^ 64) :
    slots text a.length b.length (a ++ (b ++ rest)) = .ok (a, b, rest) := by
  have : ¬ (a.length + b.length ≥ 2 ^ 64 ∨ (a ++ (b ++ rest)).length < a.length + b.length) := by
    simp only [length_append]
    omega
  rw [slots, if_neg this]
  simp [drop_append]

def ttlMods (ttl : Int) : Nat :=
  if ttl ≠ 0 then Modifiers.hasTtl else 0

theorem check_ttlMods (ttl : Int) : Modifiers.check (ttlMods ttl) = .ok () := by
  simp only [ttlMods]
  split <;> rfl

theorem decodeRawRecord_encodeRaw (h : Fields a b seq ttl) (kind : RecordKind) (rest : Bytes) :
    decodeRawRecord (encodeRaw kind (ttlMods ttl) a b seq ttl ++ rest) =
      .ok (⟨kind, ttlMods ttl, seq, ttl, a, b⟩, rest) := by
  have ha : a.length < 2 ^ 64 := by have := h.slots; omega
  have hb : b.length < 2 ^ 64 := by have := h.slots; omega
  have hm : ttlMods ttl < 2 ^ 64 := by
    simp only [ttlMods]
    split <;> decide
  by_cases ht : ttl = 0
  · subst ht
    simp [decodeRawRecord, encodeRaw, uvarint_append kind.code_lt, uvarint_append hm,
      check_ttlMods, uvarint_append ha, uvarint_append hb, uvarint_append h.seq,
      slots_append _ h.slots]
    simp [ttlMods]
  · simp [decodeRawRecord, encodeRaw, uvarint_append kind.code_lt, uvarint_append hm,
      check_ttlMods, uvarint_append ha, uvarint_append hb, uvarint_append h.seq, ht,
      varint_append h.low h.high, slots_append _ h.slots]
    simp [ttlMods, ht, Modifiers.hasTtl, Modifiers.hasVlog]

def Record.Valid (r : Record) : Prop :=
  Fields r.key r.value r.seq r.ttl

namespace EnvelopeRecord

def replayed : EnvelopeRecord → List ReplayRecord
  | point r => [.point r]
  | range start stop seq => [.rangeDelete start stop seq]
  | control .. => []

def Valid : EnvelopeRecord → Prop
  | point r => r.Valid
  | range start stop seq => Fields start stop seq 0 ∧ start ≠ [] ∧ stop ≠ []
  | control .. => False

end EnvelopeRecord

theorem encodeEnvelopeRecord_point (r : Record) :
    encodeEnvelopeRecord (.point r) = encodeRaw (.point r.kind) (ttlMods r.ttl) r.key r.value r.seq r.ttl :=
  rfl

theorem decodeEnvelopeRecord_encode (h : r.Valid) (rest : Bytes) :
    ∃ d, r.replayed = [d] ∧ decodeEnvelopeRecord (encodeEnvelopeRecord r ++ rest) = .ok (d, rest) := by
  cases r
  case point r =>
    refine ⟨.point r, rfl, ?_⟩
    simp [decodeEnvelopeRecord, encodeEnvelopeRecord_point, decodeRawRecord_encodeRaw h, rawToPoint]
  case range start stop seq =>
    obtain ⟨hf, hs, he⟩ := h
    refine ⟨.rangeDelete start stop seq, rfl, ?_⟩
    have := decodeRawRecord_encodeRaw hf .rangeDelete rest
    simp only [ttlMods, ne_eq, not_true_eq_false, if_false] at this
    simp [decodeEnvelopeRecord, encodeEnvelopeRecord, this, hs, he]
  case control => exact h.elim

theorem encodeRaw_ne_nil (kind : RecordKind) (mods : Nat) (a b : Bytes) (seq : Nat) (ttl : Int) :
    encodeRaw kind mods a b seq ttl ≠ [] := by
  rw [encodeRaw, appendUvarint]
  split <;> simp

theorem encodeEnvelopeRecord_ne_nil (r : EnvelopeRecord) : encodeEnvelopeRecord r ≠ [] := by
  cases r
  case point r => exact encodeRaw_ne_nil _ _ _ _ _ _
  case range => exact encodeRaw_ne_nil _ _ _ _ _ _
  case control => exact encodeRaw_ne_nil _ _ _ _ _ _

theorem decodeEnvelopeRecords_encode {recs : List EnvelopeRecord} (h : ∀ r ∈ recs, r.Valid) :
    decodeEnvelopeRecords recs.length (recs.flatMap encodeEnvelopeRecord) =
      .ok (recs.flatMap EnvelopeRecord.replayed) := by
  induction recs with
  | nil => rfl
  | cons r recs ih =>
    obtain ⟨d, hd, hr⟩ := decodeEnvelopeRecord_encode (h r (by simp)) (recs.flatMap encodeEnvelopeRecord)
    have ih := ih fun q hq => h q (mem_cons_of_mem _ hq)
    simp [decodeEnvelopeRecords, encodeEnvelopeRecord_ne_nil r, hd, hr, ih]

theorem leadsControl_encodeRaw (kind : RecordKind) (mods : Nat) (a b : Bytes) (seq : Nat) (ttl : Int)
    (rest : Bytes) : leadsControl (encodeRaw kind mods a b seq ttl ++ rest) = kind.isControl := by
  simp [leadsControl, encodeRaw, uvarint_append kind.code_lt, Except.toOption]

theorem leadsControl_data {recs : List EnvelopeRecord} (h : ∀ r ∈ recs, r.Valid) :
    leadsControl (recs.flatMap encodeEnvelopeRecord) = false := by
  cases recs
  case nil => rfl
  case cons r recs =>
    have hr := h r (by simp)
    rw [flatMap_cons]
    cases r
    case point => exact leadsControl_encodeRaw _ _ _ _ _ _ _
    case range => exact leadsControl_encodeRaw _ _ _ _ _ _ _
    case control => exact hr.elim

theorem Schema.code_lt (s : Schema) : s.code < 2 ^ 64 := by
  cases s <;> decide

theorem Schema.known (s : Schema) : ¬ (s.code ≠ perCf.code ∧ s.code ≠ unified.code) := by
  cases s <;> decide

theorem decodeEnvelope_data {recs : List EnvelopeRecord} (h : ∀ r ∈ recs, r.Valid)
    (hn : recs.length < 2 ^ 64) (s : Schema) :
    decodeFramePayload (Batch.encodeEnvelope s recs) = .ok (recs.flatMap EnvelopeRecord.replayed) := by
  simp [decodeFramePayload, Batch.encodeEnvelope, decodeEnvelope, uvarint_append s.code_lt, s.known,
    uvarint_append hn, leadsControl_data h, decodeEnvelopeRecords_encode h]

theorem chunks_flatMap_putU64 (h : ∀ c ∈ ids, c < 2 ^ 64) :
    chunks (ids.flatMap putU64) = ids := by
  induction ids with
  | nil => rfl
  | cons c ids ih =>
    have hc : readLe (putLe 8 c) = c := by
      rw [readLe_putLe]
      exact Nat.mod_eq_of_lt (h c (by simp))
    simp only [putLe, Nat.div_div_eq_div_mul] at hc
    simp [flatMap_cons, putU64, putLe, chunks, Nat.div_div_eq_div_mul, hc,
      ih fun q hq => h q (mem_cons_of_mem _ hq)]

theorem length_flatMap_putU64 (ids : List Nat) : (ids.flatMap putU64).length = 8 * ids.length := by
  induction ids with
  | nil => rfl
  | cons c ids ih => simp [putU64, ih]; omega

def Record.unsequenced (r : Record) : Record :=
  { r with seq := 0 }

theorem decodeControlRaws_points {recs : List Record} (h : ∀ r ∈ recs, r.unsequenced.Valid) :
    decodeControlRaws recs.length
        ((recs.map fun r => EnvelopeRecord.point r.unsequenced).flatMap encodeEnvelopeRecord) =
      .ok (recs.map fun r => ⟨.point r.kind, ttlMods r.ttl, 0, r.ttl, r.key, r.value⟩) := by
  induction recs with
  | nil => rfl
  | cons r recs ih =>
    have ih := ih fun q hq => h q (mem_cons_of_mem _ hq)
    have hr := decodeRawRecord_encodeRaw (h r (by simp)) (.point r.kind)
      ((recs.map fun r => EnvelopeRecord.point r.unsequenced).flatMap encodeEnvelopeRecord)
    have hm : ¬ (ttlMods r.ttl / 4 ≠ 0 ∨ ttlMods r.ttl % 2 ≠ 0) := by
      simp only [ttlMods]
      split <;> decide
    simp only [Record.unsequenced] at hr ih
    simp only [length_cons, map_cons, flatMap_cons, decodeControlRaws,
      append_eq_nil_iff, encodeRaw_ne_nil, false_and, if_false,
      encodeEnvelopeRecord_point, Record.unsequenced, hr, ok_bind, ne_eq, not_true_eq_false, hm, ih]

theorem prepared_points (recs : List Record) :
    prepared (recs.map fun r => ⟨.point r.kind, ttlMods r.ttl, 0, r.ttl, r.key, r.value⟩) =
      .ok (recs.map Record.unsequenced) := by
  induction recs with
  | nil => rfl
  | cons r recs ih => simp [prepared, ih, rawToPoint, Record.unsequenced]

theorem decodeControlRaws_control (kind : RecordKind) {a b : Bytes} {recs : List Record}
    (hab : a.length + b.length < 2 ^ 64) (h : ∀ r ∈ recs, r.unsequenced.Valid) :
    decodeControlRaws (recs.length + 1) (encodeEnvelopeRecord (.control kind a b) ++
        (recs.map fun r => EnvelopeRecord.point r.unsequenced).flatMap encodeEnvelopeRecord) =
      .ok (⟨kind, 0, 0, 0, a, b⟩ ::
        recs.map fun r => ⟨.point r.kind, ttlMods r.ttl, 0, r.ttl, r.key, r.value⟩) := by
  have hfields : Fields a b 0 0 := ⟨hab, Nat.two_pow_pos 64, by decide, by decide⟩
  have hc := decodeRawRecord_encodeRaw hfields kind
    ((recs.map fun r => EnvelopeRecord.point r.unsequenced).flatMap encodeEnvelopeRecord)
  simp only [ttlMods, ne_eq, not_true_eq_false, if_false] at hc
  simp [decodeControlRaws, encodeRaw_ne_nil, encodeEnvelopeRecord, hc, decodeControlRaws_points h]

theorem flags_normalized (hk : k ≠ .merge) (ttl : Bool) :
    ∃ fl, Flags.normalized k.tombstone (k = .singleDelete) ttl false = fl ∧ fl ≠ envelopeTag ∧
      Flags.check fl = .ok () ∧ (fl &&& Flags.hasTtl ≠ 0 ↔ ttl = true) ∧
      pointKind (fl &&& Flags.tombstone ≠ 0) (fl &&& Flags.singleDelete ≠ 0) = k := by
  refine ⟨_, rfl, ?_⟩
  cases k <;> cases ttl <;> first | exact absurd rfl hk | decide

theorem decodeRecord_encode (h : r.Valid) (hk : r.kind ≠ .merge) (rest : Bytes) :
    decodeRecord (encodeRecordBody r ++ rest) = .ok (r, rest) := by
  have hs : r.key.length < 2 ^ 64 := by have := h.slots; omega
  have hv : r.value.length < 2 ^ 64 := by have := h.slots; omega
  obtain ⟨fl, hfl, -, hok, httl, hkind⟩ := flags_normalized hk (r.ttl ≠ 0)
  simp only [ne_eq, decide_not] at hkind
  by_cases ht : r.ttl = 0
  · simp only [ht, ne_eq, not_true_eq_false, decide_false, Bool.false_eq_true, iff_false,
      not_not] at httl hfl
    simp [decodeRecord, encodeRecordBody, ht, hfl, hok, uvarint_append hs,
      uvarint_append hv, uvarint_append h.seq, httl, slots_append _ h.slots, hkind]
    rw [← ht]
  · simp only [ht, ne_eq, not_false_eq_true, decide_true, iff_true] at httl hfl
    simp [decodeRecord, encodeRecordBody, ht, hfl, hok, uvarint_append hs,
      uvarint_append hv, uvarint_append h.seq, httl, varint_append h.low h.high,
      slots_append _ h.slots, hkind]

theorem encodeRecordBody_length_pos (r : Record) : 0 < (encodeRecordBody r).length := by
  simp [encodeRecordBody]

theorem decodeRecords_encode {recs : List Record} (h : ∀ r ∈ recs, r.Valid ∧ r.kind ≠ .merge) {n : Nat}
    (hn : (recs.flatMap encodeRecordBody).length ≤ n) :
    decodeRecords n (recs.flatMap encodeRecordBody) = .ok (recs.map .point) := by
  induction recs generalizing n with
  | nil => simp [decodeRecords]
  | cons r recs ih =>
    rw [flatMap_cons, length_append] at hn
    have hpos := encodeRecordBody_length_pos r
    obtain ⟨m, rfl⟩ : ∃ m, n = m + 1 := ⟨n - 1, by omega⟩
    obtain ⟨hr, hk⟩ := h r (by simp)
    have hd := decodeRecord_encode hr hk (recs.flatMap encodeRecordBody)
    have ih := ih (fun q hq => h q (mem_cons_of_mem _ hq)) (n := m) (by omega)
    rw [flatMap_cons, decodeRecords, hd]
    · simp [ih]
    · simp [encodeRecordBody]

namespace Batch

def replayed : Batch → List ReplayRecord
  | legacy recs => recs.map .point
  | envelope _ recs => recs.flatMap EnvelopeRecord.replayed
  | prepare _ id cfIds recs => [.prepare id cfIds (recs.map Record.unsequenced)]
  | decision _ id commit => [.decision id commit]

-- What the commit, prepare and decision paths hand to the log.
def Valid : Batch → Prop
  | legacy recs => ∀ r ∈ recs, r.Valid ∧ r.kind ≠ .merge
  | envelope _ recs => recs.length < 2 ^ 64 ∧ ∀ r ∈ recs, r.Valid
  | prepare _ id cfIds recs =>
    id.length = 16 ∧ 8 * cfIds.length + 16 < 2 ^ 64 ∧ (∀ c ∈ cfIds, c < 2 ^ 64) ∧
      recs.length + 1 < 2 ^ 64 ∧ ∀ r ∈ recs, r.unsequenced.Valid
  | decision _ id commit => id.length = 16 ∧ ∀ c ∈ commit, c.1 < 2 ^ 64 ∧ c.2 < 2 ^ 64

theorem decode_prepare {s : Schema} {id : Bytes} {cfIds : List Nat} {recs : List Record}
    (h : (prepare s id cfIds recs).Valid) :
    decodeFramePayload (prepare s id cfIds recs).payload = .ok (prepare s id cfIds recs).replayed := by
  obtain ⟨hid, hlen, hcf, hn, hrecs⟩ := h
  have hab : id.length + (cfIds.flatMap putU64).length < 2 ^ 64 := by
    rw [length_flatMap_putU64]
    omega
  have hraws := decodeControlRaws_control .prepare hab hrecs
  have hb : (cfIds.flatMap putU64).length % 8 = 0 := by
    rw [length_flatMap_putU64]
    omega
  have hl : leadsControl (encodeEnvelopeRecord (.control .prepare id (cfIds.flatMap putU64)) ++
      (recs.map fun r => EnvelopeRecord.point r.unsequenced).flatMap encodeEnvelopeRecord) = true :=
    leadsControl_encodeRaw _ _ _ _ _ _ _
  simp only [Record.unsequenced] at hraws hl
  simp [-length_flatMap, payload, prepareRecords, encodeEnvelope, decodeFramePayload,
    decodeEnvelope, uvarint_append s.code_lt, s.known, uvarint_append hn, hl, decodeControlFrame, hraws, controlId,
    hid, hb, prepared_points, chunks_flatMap_putU64 hcf, replayed]

theorem decode_decision {s : Schema} {id : Bytes} {commit : Option (Nat × Nat)}
    (h : (decision s id commit).Valid) :
    decodeFramePayload (decision s id commit).payload = .ok (decision s id commit).replayed := by
  obtain ⟨hid, hc⟩ := h
  have h1 : (1 : Nat) < 2 ^ 64 := by decide
  have hl : ∀ k a b, leadsControl (encodeEnvelopeRecord (.control k a b)) = k.isControl := by
    intro k a b
    have := leadsControl_encodeRaw k 0 a b 0 0 []
    rwa [append_nil] at this
  rcases commit with _ | ⟨q, n⟩
  · have hraws := decodeControlRaws_control .abortDecision (a := id) (b := []) (by simp [hid])
      (forall_mem_nil _)
    simp only [map_nil, flatMap_nil, append_nil, length_nil, Nat.zero_add] at hraws
    simp [payload, decisionRecord, encodeEnvelope, decodeFramePayload, decodeEnvelope,
      uvarint_append s.code_lt, s.known, uvarint_append h1, hl, RecordKind.isControl,
      decodeControlFrame, hraws, controlId, hid, replayed]
  · obtain ⟨hq, hn⟩ := hc (q, n) rfl
    have hq' : readLe (putU64 q) = q := by
      rw [putU64, readLe_putLe]
      exact Nat.mod_eq_of_lt hq
    have hn' : readLe (putU64 n) = n := by
      rw [putU64, readLe_putLe]
      exact Nat.mod_eq_of_lt hn
    have hlen : (putU64 q).length = 8 ∧ (putU64 n).length = 8 := by simp [putU64]
    have hraws := decodeControlRaws_control .commitDecision (a := id) (b := putU64 q ++ putU64 n)
      (by simp [hid, hlen]) (forall_mem_nil _)
    simp only [map_nil, flatMap_nil, append_nil, length_nil, Nat.zero_add] at hraws
    simp [payload, decisionRecord, encodeEnvelope, decodeFramePayload, decodeEnvelope,
      uvarint_append s.code_lt, s.known, uvarint_append h1, hl, RecordKind.isControl,
      decodeControlFrame, hraws, controlId, hid, hlen, hq', hn', replayed]

theorem decode_legacy {recs : List Record} (h : (legacy recs).Valid) :
    decodeFramePayload (legacy recs).payload = .ok (legacy recs).replayed := by
  have hd := decodeRecords_encode h (le_refl _)
  cases recs
  case nil => rfl
  case cons r recs =>
    obtain ⟨fl, hfl, htag, -⟩ := flags_normalized (h r (by simp)).2 (r.ttl ≠ 0)
    have hp : (legacy (r :: recs)).payload = (r :: recs).flatMap encodeRecordBody := rfl
    have hc : (r :: recs).flatMap encodeRecordBody = fl :: (((r :: recs).flatMap encodeRecordBody).tail) := by
      rw [flatMap_cons, encodeRecordBody, hfl]
      rfl
    rw [hp, hc, decodeFramePayload, if_neg htag, ← hc, hd]
    rfl

theorem decode_payload {b : Batch} (h : b.Valid) : decodeFramePayload b.payload = .ok b.replayed := by
  cases b
  case legacy => exact decode_legacy h
  case envelope s _ => exact decodeEnvelope_data h.2 h.1 s
  case prepare => exact decode_prepare h
  case decision => exact decode_decision h

end Batch

end OndaDb.Wal

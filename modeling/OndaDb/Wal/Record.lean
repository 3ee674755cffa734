import OndaDb.Encoding
import OndaDb.Error
import OndaDb.Version

namespace OndaDb.Wal

open Encoding

-- The kinds a record may be written under, numbered as on disk.
inductive RecordKind
  | point (kind : Kind)
  | rangeDelete
  | prepare
  | commitDecision
  | abortDecision
  deriving DecidableEq, Repr

namespace RecordKind

def code : RecordKind → Nat
  | point .put => 1
  | point .delete => 2
  | point .singleDelete => 3
  | point .merge => 4
  | rangeDelete => 5
  | prepare => 16
  | commitDecision => 17
  | abortDecision => 18

def maxAssignable : Nat := 63

def check (kind : Nat) : Except OndaError RecordKind :=
  if kind > maxAssignable then
    .error (.corruption s!"record kind {kind} is above the never-assigned bound {maxAssignable}")
  else match kind with
    | 1 => .ok (point .put)
    | 2 => .ok (point .delete)
    | 3 => .ok (point .singleDelete)
    | 4 => .ok (point .merge)
    | 5 => .ok rangeDelete
    | 16 => .ok prepare
    | 17 => .ok commitDecision
    | 18 => .ok abortDecision
    | _ => .error (.unsupportedFormat s!"record kind {kind} is not implemented by this binary")

def isControl : RecordKind → Bool
  | prepare | commitDecision | abortDecision => true
  | _ => false

end RecordKind

-- The bits of a legacy record's first byte; an envelope record's modifiers use the same values.
namespace Flags

def tombstone    : UInt8 := 0x01
def hasTtl       : UInt8 := 0x02
def hasVlog      : UInt8 := 0x04
def singleDelete : UInt8 := 0x10
def known        : UInt8 := tombstone ||| hasTtl ||| hasVlog ||| singleDelete

def normalized (tomb single ttl vlog : Bool) : UInt8 :=
  let tomb := tomb || single
  (if tomb then tombstone else 0) ||| (if single then singleDelete else 0) |||
    (if ttl then hasTtl else 0) ||| (if vlog && !tomb then hasVlog else 0)

def hex (n : Nat) : String :=
  "0x" ++ (if n < 16 then "0" else "") ++ String.ofList (Nat.toDigits 16 n)

def check (fl : UInt8) : Except OndaError Unit :=
  if fl &&& ~~~known ≠ 0 then
    .error (.corruption
      ("entry flags " ++ hex fl.toNat ++ " outside known mask " ++ hex known.toNat))
  else if fl &&& singleDelete ≠ 0 ∧ fl &&& tombstone = 0 then
    .error (.corruption "entry flags: SINGLE_DELETE without TOMBSTONE")
  else if fl &&& tombstone ≠ 0 ∧ fl &&& hasVlog ≠ 0 then
    .error (.corruption "entry flags: TOMBSTONE with HAS_VLOG")
  else .ok ()

end Flags

namespace Modifiers

def hasTtl  : Nat := 0x02
def hasVlog : Nat := 0x04
def known   : Nat := hasTtl ||| hasVlog

def check (mods : Nat) : Except OndaError Unit :=
  if mods / 8 ≠ 0 ∨ mods % 2 ≠ 0 then
    .error (.corruption ("record modifiers 0x" ++ String.ofList (Nat.toDigits 16 mods) ++
      " outside known mask 0x" ++ String.ofList (Nat.toDigits 16 known)))
  else .ok ()

end Modifiers

-- One point write. A `ttl` of 0 never expires.
structure Record where
  key : Bytes
  value : Bytes
  seq : Nat
  ttl : Int
  kind : Kind
  deriving DecidableEq, Repr

inductive ReplayRecord
  | point (r : Record)
  | rangeDelete (start stop : Bytes) (seq : Nat)
  | prepare (id : Bytes) (cfIds : List Nat) (records : List Record)
  | decision (id : Bytes) (commit : Option (Nat × Nat))
  deriving DecidableEq, Repr

def ReplayRecord.replaySeq : ReplayRecord → Nat
  | point r => r.seq
  | rangeDelete _ _ seq => seq
  | prepare .. => 0
  | decision .. => 0

inductive EnvelopeRecord
  | point (r : Record)
  | range (start stop : Bytes) (seq : Nat)
  | control (kind : RecordKind) (a b : Bytes)
  deriving DecidableEq, Repr

def envelopeTag : UInt8 := 0xFF

inductive Schema
  | perCf
  | unified
  deriving DecidableEq, Repr

def Schema.code : Schema → Nat
  | perCf => 1
  | unified => 2

-- An envelope record's fields, `a` and `b` being the key and value of a point write, the bounds
-- of a range delete, or what a control kind defines.
structure RawRecord where
  kind : RecordKind
  mods : Nat
  seq : Nat
  ttl : Int
  a : Bytes
  b : Bytes
  deriving DecidableEq, Repr

def encodeRaw (kind : RecordKind) (mods : Nat) (a b : Bytes) (seq : Nat) (ttl : Int) : Bytes :=
  appendUvarint kind.code ++ (appendUvarint mods ++ (appendUvarint a.length ++
    (appendUvarint b.length ++ (appendUvarint seq ++
      ((if ttl ≠ 0 then appendVarint ttl else []) ++ (a ++ b))))))

def encodeEnvelopeRecord : EnvelopeRecord → Bytes
  | .point r =>
    encodeRaw (.point r.kind) (if r.ttl ≠ 0 then Modifiers.hasTtl else 0) r.key r.value r.seq r.ttl
  | .range start stop seq => encodeRaw .rangeDelete 0 start stop seq 0
  | .control kind a b => encodeRaw kind 0 a b 0 0

def required (text : String) : Option α → Except OndaError α
  | none => .error (.corruption text)
  | some a => .ok a

def slots (text : String) (alen blen : Nat) (p : Bytes) : Except OndaError (Bytes × Bytes × Bytes) :=
  -- `checked_add` of the two lengths, then the bytes there are.
  if alen + blen ≥ 2 ^ 64 ∨ p.length < alen + blen then .error (.corruption text)
  else .ok (p.take alen, (p.drop alen).take blen, p.drop (alen + blen))

def decodeRawRecord (p : Bytes) : Except OndaError (RawRecord × Bytes) := do
  let corrupt := "wal: malformed envelope record"
  let (kind, p) ← required corrupt (uvarint p)
  let kind ← RecordKind.check kind
  let (mods, p) ← required corrupt (uvarint p)
  Modifiers.check mods
  let (alen, p) ← required corrupt (uvarint p)
  let (blen, p) ← required corrupt (uvarint p)
  let (seq, p) ← required corrupt (uvarint p)
  let (ttl, p) ← if mods &&& Modifiers.hasTtl ≠ 0 then required corrupt (varint p) else .ok (0, p)
  if mods &&& Modifiers.hasVlog ≠ 0 then
    .error (.corruption "wal: envelope record sets HAS_VLOG")
  else
    let (a, b, p) ← slots corrupt alen blen p
    .ok (⟨kind, mods, seq, ttl, a, b⟩, p)

def rawToPoint (kind : Kind) (r : RawRecord) : Record :=
  { key := r.a, value := r.b, seq := r.seq, ttl := r.ttl, kind := kind }

def decodeEnvelopeRecord (p : Bytes) : Except OndaError (ReplayRecord × Bytes) := do
  let (r, p) ← decodeRawRecord p
  match r.kind with
  | .point kind => .ok (.point (rawToPoint kind r), p)
  | .rangeDelete =>
    if r.mods ≠ 0 then
      .error (.corruption "wal: range-delete record carries modifiers")
    else if r.a.length = 0 ∨ r.b.length = 0 then
      .error (.corruption "wal: range-delete record has an empty bound")
    else .ok (.rangeDelete r.a r.b r.seq, p)
  | kind =>
    let code := kind.code
    .error (.corruption s!"wal: transaction-control kind {code} outside a control frame")

def controlId (a : Bytes) : Except OndaError Bytes :=
  let n := a.length
  if n = 16 then .ok a
  else .error (.corruption s!"wal: transaction-control id is {n} bytes, not 16")

def controlFrame (why : String) : OndaError :=
  .corruption ("wal: control frame " ++ why)

def decodeControlRaws : Nat → Bytes → Except OndaError (List RawRecord)
  | 0,     p => if p = [] then .ok [] else .error (controlFrame "has records past the promised count")
  | n + 1, p => do
    if p = [] then .error (controlFrame "promises more records than exist")
    else
      let (r, p) ← decodeRawRecord p
      if r.seq ≠ 0 then .error (controlFrame "record carries a non-zero sequence")
      else if r.mods / 4 ≠ 0 ∨ r.mods % 2 ≠ 0 then
        .error (controlFrame "record carries an unexpected modifier")
      else
        let rs ← decodeControlRaws n p
        .ok (r :: rs)

def chunks : Bytes → List Nat
  | a :: b :: c :: d :: e :: f :: g :: h :: rest => readLe [a, b, c, d, e, f, g, h] :: chunks rest
  | _ => []

def prepared : List RawRecord → Except OndaError (List Record)
  | [] => .ok []
  | r :: rs => do
    match r.kind with
    | .point kind =>
      let rs ← prepared rs
      .ok (rawToPoint kind r :: rs)
    | _ => .error (controlFrame "prepare holds a record that is not a point write")

def decodeControlFrame (p : Bytes) (count : Nat) : Except OndaError ReplayRecord := do
  match ← decodeControlRaws count p with
  | [] => .error (controlFrame "promises more records than exist")
  | head :: rest =>
    match head.kind with
    | .prepare =>
      if head.mods ≠ 0 then .error (controlFrame "prepare record carries modifiers")
      else
        let id ← controlId head.a
        if head.b.length % 8 ≠ 0 then
          .error (controlFrame "prepare cf-id list is not a whole number of ids")
        else
          let records ← prepared rest
          .ok (.prepare id (chunks head.b) records)
    | .commitDecision =>
      if rest ≠ [] then .error (controlFrame "decision is not a single record")
      else if head.mods ≠ 0 then .error (controlFrame "decision record carries modifiers")
      else
        let id ← controlId head.a
        if head.b.length ≠ 16 then .error (controlFrame "commit decision payload is not 16 bytes")
        else .ok (.decision id (some (readLe (head.b.take 8), readLe (head.b.drop 8))))
    | .abortDecision =>
      if rest ≠ [] then .error (controlFrame "decision is not a single record")
      else if head.mods ≠ 0 then .error (controlFrame "decision record carries modifiers")
      else
        let id ← controlId head.a
        if head.b ≠ [] then .error (controlFrame "abort decision carries a payload")
        else .ok (.decision id none)
    | kind =>
      let code := kind.code
      .error (controlFrame s!"leads with kind {code}")

def decodeEnvelopeRecords : Nat → Bytes → Except OndaError (List ReplayRecord)
  | 0,     p => if p = [] then .ok [] else .error (.corruption "wal: malformed envelope")
  | n + 1, p => do
    if p = [] then .error (.corruption "wal: malformed envelope")
    else
      let (r, p) ← decodeEnvelopeRecord p
      let rs ← decodeEnvelopeRecords n p
      .ok (r :: rs)

-- The kind of the first record decides between a control frame and a stream of data records.
def leadsControl (p : Bytes) : Bool :=
  match uvarint p with
  | some (kind, _) => (RecordKind.check kind).toOption.any RecordKind.isControl
  | none => false

def decodeEnvelope (p : Bytes) : Except OndaError (List ReplayRecord) := do
  let corrupt := "wal: malformed envelope"
  let (schema, p) ← required corrupt (uvarint p)
  if schema ≠ Schema.perCf.code ∧ schema ≠ Schema.unified.code then
    .error (.unsupportedFormat s!"wal envelope schema {schema} is not implemented by this binary")
  else
    let (count, p) ← required corrupt (uvarint p)
    if leadsControl p then
      if count = 0 then .error (.corruption corrupt)
      else
        let r ← decodeControlFrame p count
        .ok [r]
    else decodeEnvelopeRecords count p

def encodeRecordBody (r : Record) : Bytes :=
  Flags.normalized r.kind.tombstone (r.kind = .singleDelete) (r.ttl ≠ 0) false ::
    (appendUvarint r.key.length ++ (appendUvarint r.value.length ++ (appendUvarint r.seq ++
      ((if r.ttl ≠ 0 then appendVarint r.ttl else []) ++ (r.key ++ r.value)))))

def pointKind (tombstone singleDelete : Bool) : Kind :=
  if singleDelete then .singleDelete else if tombstone then .delete else .put

def decodeRecord (p : Bytes) : Except OndaError (Record × Bytes) := do
  let corrupt := "wal: malformed record"
  match p with
  | [] => .error (.corruption corrupt)
  | fl :: p =>
    Flags.check fl
    let (klen, p) ← required corrupt (uvarint p)
    let (vlen, p) ← required corrupt (uvarint p)
    let (seq, p) ← required corrupt (uvarint p)
    let (ttl, p) ← if fl &&& Flags.hasTtl ≠ 0 then required corrupt (varint p) else .ok (0, p)
    let (key, value, p) ← slots corrupt klen vlen p
    let kind := pointKind (fl &&& Flags.tombstone ≠ 0) (fl &&& Flags.singleDelete ≠ 0)
    .ok (⟨key, value, seq, ttl, kind⟩, p)

-- The loop over a legacy payload; every record takes a byte or more, so `fuel` is its length.
def decodeRecords : Nat → Bytes → Except OndaError (List ReplayRecord)
  | _,     [] => .ok []
  | 0,     _ :: _ => .error (.corruption "wal: malformed record")
  | n + 1, p => do
    let (r, p) ← decodeRecord p
    let rs ← decodeRecords n p
    .ok (.point r :: rs)

def decodeFramePayload (payload : Bytes) : Except OndaError (List ReplayRecord) :=
  match payload with
  | [] => .ok []
  | b :: p => if b = envelopeTag then decodeEnvelope p else decodeRecords payload.length payload

inductive Batch
  | legacy (recs : List Record)
  | envelope (schema : Schema) (recs : List EnvelopeRecord)
  | prepare (schema : Schema) (id : Bytes) (cfIds : List Nat) (recs : List Record)
  | decision (schema : Schema) (id : Bytes) (commit : Option (Nat × Nat))
  deriving DecidableEq, Repr

namespace Batch

def prepareRecords (id : Bytes) (cfIds : List Nat) (recs : List Record) : List EnvelopeRecord :=
  .control .prepare id (cfIds.flatMap putU64) :: recs.map fun r => .point { r with seq := 0 }

def decisionRecord (id : Bytes) : Option (Nat × Nat) → EnvelopeRecord
  | some (commitSeq, count) => .control .commitDecision id (putU64 commitSeq ++ putU64 count)
  | none => .control .abortDecision id []

def encodeEnvelope (schema : Schema) (recs : List EnvelopeRecord) : Bytes :=
  envelopeTag :: (appendUvarint schema.code ++ (appendUvarint recs.length ++
    recs.flatMap encodeEnvelopeRecord))

def payload : Batch → Bytes
  | legacy recs => recs.flatMap encodeRecordBody
  | envelope schema recs => encodeEnvelope schema recs
  | prepare schema id cfIds recs => encodeEnvelope schema (prepareRecords id cfIds recs)
  | decision schema id commit => encodeEnvelope schema [decisionRecord id commit]

end Batch

end OndaDb.Wal
